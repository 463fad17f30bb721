import SglJax.Foundation.PyText
import Mathlib.Data.List.TakeWhile

/-! Searching a text: where `find` stands when the text is cut or continued, and what is
left of a text without a word. -/
namespace SglJax.Text

variable {sub text before mid after : Text} {i : Nat}

theorem find_cons (sub : Text) (c : Char) (rest : Text) :
    find sub (c :: rest) =
      if sub.isPrefixOf (c :: rest) then some 0 else (find sub rest).map (· + 1) := by
  rw [find]

theorem find_of_prefix (h : sub <+: text) : find sub text = some 0 := by
  cases text with
  | nil => exact if_pos (List.prefix_nil.mp h)
  | cons c rest => rw [find_cons, if_pos (List.isPrefixOf_iff_prefix.mpr h)]

/-- The word stands at the place that is found. -/
theorem prefix_of_find (h : find sub text = some i) : sub <+: text.drop i := by
  induction text generalizing i with
  | nil =>
    unfold find at h
    split at h
    · rename_i hsub
      rw [hsub]
      exact List.nil_prefix
    · cases h
  | cons c rest ih =>
    rw [find_cons] at h
    split at h
    · rename_i hstands
      cases h
      exact List.isPrefixOf_iff_prefix.mp hstands
    · obtain ⟨j, hj, rfl⟩ := Option.map_eq_some_iff.mp h
      exact ih hj

theorem find_le_length (h : find sub text = some i) : i ≤ text.length := by
  induction text generalizing i with
  | nil =>
    unfold find at h
    split at h
    · cases h
      exact Nat.le_refl _
    · cases h
  | cons c rest ih =>
    rw [find_cons] at h
    split at h
    · cases h
      exact Nat.zero_le _
    · obtain ⟨j, hj, rfl⟩ := Option.map_eq_some_iff.mp h
      exact Nat.succ_le_succ (ih hj)

theorem find_add_length_le (h : find sub text = some i) : i + sub.length ≤ text.length := by
  have hlength := (prefix_of_find h).length_le
  have hle := find_le_length h
  rw [List.length_drop] at hlength
  omega

/-- Nothing is found exactly in a text without the word. -/
theorem find_eq_none_iff : find sub text = none ↔ ¬ sub <:+: text := by
  induction text with
  | nil =>
    unfold find
    split
    · rename_i hsub
      simp [hsub]
    · rename_i hsub
      simp [hsub]
  | cons c rest ih =>
    rw [find_cons, List.infix_cons_iff, not_or, ← ih]
    split
    · rename_i hstands
      simp [List.isPrefixOf_iff_prefix.mp hstands]
    · rename_i hstands
      rw [Option.map_eq_none_iff, ← List.isPrefixOf_iff_prefix]
      simp [hstands]

theorem find_append_right (h : find sub text = some i) (more : Text) :
    find sub (text ++ more) = some i := by
  induction text generalizing i with
  | nil =>
    unfold find at h
    split at h
    · rename_i hsub
      rw [hsub]
      cases h
      exact find_of_prefix List.nil_prefix
    · cases h
  | cons c rest ih =>
    rw [find_cons] at h
    split at h
    · rename_i hstands
      cases h
      exact find_of_prefix
        ((List.isPrefixOf_iff_prefix.mp hstands).trans (List.prefix_append _ more))
    · rename_i hstands
      obtain ⟨j, hj, rfl⟩ := Option.map_eq_some_iff.mp h
      have hle : sub.length ≤ (c :: rest).length := by
        have hend := find_add_length_le hj
        rw [List.length_cons]
        omega
      rw [List.cons_append, find_cons, if_neg, ih hj]
      · rfl
      · intro hmore
        have hpre := List.isPrefixOf_iff_prefix.mp hmore
        rw [← List.cons_append] at hpre
        exact hstands (List.isPrefixOf_iff_prefix.mpr
          (List.prefix_of_prefix_length_le hpre (List.prefix_append _ more) hle))

/-- No place of the first part is one of the word. -/
def NoneWithin (sub before after : Text) : Prop :=
  ∀ i < before.length, ¬ sub <+: (before ++ after).drop i

theorem noneWithin_nil (sub after : Text) : NoneWithin sub [] after :=
  fun _ hi => absurd hi (Nat.not_lt_zero _)

theorem find_append_left (h : NoneWithin sub before after) :
    find sub (before ++ after) = (find sub after).map (· + before.length) := by
  induction before with
  | nil => cases hfind : find sub after <;> simp [hfind]
  | cons c rest ih =>
    have hfirst := h 0 (Nat.succ_pos _)
    have hrest : NoneWithin sub rest after := fun i hi => h (i + 1) (Nat.succ_lt_succ hi)
    rw [List.cons_append, find_cons, if_neg (by rwa [List.isPrefixOf_iff_prefix]), ih hrest,
      Option.map_map]
    congr 1

theorem NoneWithin.of_append {more : Text} (h : NoneWithin sub before (after ++ more)) :
    NoneWithin sub before after := by
  intro i hi hstands
  have hlonger : (before ++ after).drop i <+: (before ++ (after ++ more)).drop i := by
    have hle : i ≤ (before ++ after).length := by
      rw [List.length_append]
      omega
    rw [← List.append_assoc, List.drop_append_of_le_length hle]
    exact List.prefix_append _ _
  exact h i hi (hstands.trans hlonger)

/-- The word begins in the first part and ends behind it. -/
def Straddles (sub before after : Text) : Prop :=
  ∃ u v, u ≠ [] ∧ v ≠ [] ∧ u ++ v = sub ∧ u <:+ before ∧ v <+: after

instance (sub before after : Text) : Decidable (Straddles sub before after) :=
  decidable_of_iff (∃ k < sub.length, 0 < k ∧ sub.take k <:+ before ∧ sub.drop k <+: after) <| by
    constructor
    · rintro ⟨k, hk, hpos, hu, hv⟩
      refine ⟨sub.take k, sub.drop k, ?_, ?_, List.take_append_drop k sub, hu, hv⟩
      · exact List.ne_nil_of_length_pos (by rw [List.length_take]; omega)
      · exact List.ne_nil_of_length_pos (by rw [List.length_drop]; omega)
    · rintro ⟨u, v, hu, hv, rfl, hbefore, hafter⟩
      have hupos := List.length_pos_of_ne_nil hu
      have hvpos := List.length_pos_of_ne_nil hv
      refine ⟨u.length, by rw [List.length_append]; omega, hupos, ?_, ?_⟩
      · rwa [List.take_left]
      · rwa [List.drop_left]

theorem NoneWithin.append (h : NoneWithin sub before (mid ++ after)) (hfind : find sub mid = none)
    (hcut : ¬ Straddles sub mid after) : NoneWithin sub (before ++ mid) after := by
  intro i hi hstands
  rw [List.append_assoc] at hstands
  rcases Nat.lt_or_ge i before.length with hlt | hge
  · exact h i hlt hstands
  · have hdrop : (before ++ (mid ++ after)).drop i = mid.drop (i - before.length) ++ after := by
      rw [List.length_append] at hi
      rw [List.drop_append, List.drop_eq_nil_of_le hge, List.nil_append,
        List.drop_append_of_le_length (by omega)]
    rw [hdrop] at hstands
    have hin : 0 < (mid.drop (i - before.length)).length := by
      rw [List.length_append] at hi
      rw [List.length_drop]
      omega
    rcases Nat.lt_or_ge (mid.drop (i - before.length)).length sub.length with hlong | hshort
    · -- the word is longer than what is left of the middle
      have hu : mid.drop (i - before.length) <+: sub :=
        List.prefix_of_prefix_length_le (List.prefix_append _ after) hstands (Nat.le_of_lt hlong)
      obtain ⟨v, hv⟩ := hu
      refine hcut ⟨mid.drop (i - before.length), v, ?_, ?_, hv, List.drop_suffix _ _, ?_⟩
      · exact List.ne_nil_of_length_pos hin
      · rintro rfl
        rw [List.append_nil] at hv
        rw [hv] at hlong
        exact Nat.lt_irrefl _ hlong
      · rw [← hv] at hstands
        exact (List.prefix_append_right_inj _).mp hstands
    · have hwhole : sub <+: mid.drop (i - before.length) :=
        List.prefix_of_prefix_length_le hstands (List.prefix_append _ after) hshort
      exact find_eq_none_iff.mp hfind (hwhole.isInfix.trans (List.drop_suffix _ _).isInfix)

/-! ### Removing a word -/

/-- The text behind `skip` characters, without the word. -/
def removeFrom (sub : Text) : Nat → Text → Text
  | _, [] => []
  | skip + 1, _ :: rest => removeFrom sub skip rest
  | 0, c :: rest =>
    if sub ≠ [] ∧ sub.isPrefixOf (c :: rest) then removeFrom sub (sub.length - 1) rest
    else c :: removeFrom sub 0 rest

/-- `text.replace(sub, "")` -/
def remove (sub text : Text) : Text := removeFrom sub 0 text

theorem removeFrom_append (sub before text : Text) :
    removeFrom sub before.length (before ++ text) = removeFrom sub 0 text := by
  induction before with
  | nil => rfl
  | cons c rest ih => exact ih

theorem remove_of_not_infix (h : ¬ sub <:+: text) : remove sub text = text := by
  unfold remove
  induction text with
  | nil => rfl
  | cons c rest ih =>
    rw [List.infix_cons_iff, not_or] at h
    unfold removeFrom
    rw [if_neg (fun hc => h.1 (List.isPrefixOf_iff_prefix.mp hc.2)), ih h.2]

theorem remove_word (hsub : sub ≠ []) (text : Text) : remove sub (sub ++ text) = remove sub text := by
  cases sub with
  | nil => exact absurd rfl hsub
  | cons c rest =>
    unfold remove
    have hstands : (c :: rest).isPrefixOf (c :: (rest ++ text)) = true :=
      List.isPrefixOf_iff_prefix.mpr (List.prefix_append (c :: rest) text)
    rw [List.cons_append, removeFrom, if_pos ⟨hsub, hstands⟩, List.length_cons,
      Nat.add_sub_cancel, removeFrom_append]

theorem remove_append (hsub : sub ≠ []) (h : ¬ sub <:+: text) : remove sub (sub ++ text) = text := by
  rw [remove_word hsub, remove_of_not_infix h]

theorem exists_rstrip (text : Text) :
    ∃ spaces, (∀ c ∈ spaces, isSpace c = true) ∧ rstrip text ++ spaces = text := by
  refine ⟨(text.reverse.takeWhile isSpace).reverse, fun c hc => ?_, ?_⟩
  · exact List.mem_takeWhile_imp (List.mem_reverse.mp hc)
  · unfold rstrip
    rw [← List.reverse_append, List.takeWhile_append_dropWhile, List.reverse_reverse]

end SglJax.Text
