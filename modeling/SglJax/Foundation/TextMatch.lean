import SglJax.Foundation.TextSearch

/-! Patterns that are tried at each place of a text, as `re.search` and `re.finditer` try
them. -/
namespace SglJax.Text

variable {M : Type}

/-- What a pattern matches at the start of a text, and the length of the match. -/
abbrev Pattern (M : Type) := Text → Option (M × Nat)

/-- The matches in the text behind `skip` characters, and the characters between them. A match
comes with its text. -/
def partsFrom (pattern : Pattern M) : Nat → Text → List (Char ⊕ M × Text)
  | _, [] => []
  | skip + 1, _ :: rest => partsFrom pattern skip rest
  | 0, c :: rest =>
    match pattern (c :: rest) with
    | some (m, length) => .inr (m, (c :: rest).take length) :: partsFrom pattern (length - 1) rest
    | none => .inl c :: partsFrom pattern 0 rest

def parts (pattern : Pattern M) (text : Text) : List (Char ⊕ M × Text) := partsFrom pattern 0 text

/-- `pattern.finditer(text)` -/
def finditer (pattern : Pattern M) (text : Text) : List M :=
  (parts pattern text).filterMap fun part => part.elim (fun _ => none) fun found => some found.1

/-- `pattern.search(text)` -/
def search (pattern : Pattern M) : Text → Option M
  | [] => (pattern []).map Prod.fst
  | c :: rest =>
    match pattern (c :: rest) with
    | some (m, _) => some m
    | none => search pattern rest

/-- `start(.*?)stop` -/
def between (start stop : Text) : Pattern Text := fun text =>
  if start.isPrefixOf text then
    let rest := text.drop start.length
    (find stop rest).map fun n => (rest.take n, start.length + n + stop.length)
  else none

/-- `start([^>]+)>(.*?)stop` -/
def tagged (start stop : Text) : Pattern (Text × Text) := fun text =>
  if start.isPrefixOf text then
    let rest := text.drop start.length
    match find ['>'] rest with
    | none => none
    | some n =>
      let body := rest.drop (n + 1)
      if n = 0 then none
      else (find stop body).map fun m =>
        ((rest.take n, body.take m), start.length + (n + 1) + m + stop.length)
  else none

/-- The text before the first place that `stands` accepts, and the text from there on. -/
def breakAt (stands : Text → Bool) : Text → Option (Text × Text)
  | [] => if stands [] then some ([], []) else none
  | c :: rest =>
    if stands (c :: rest) then some ([], c :: rest)
    else (breakAt stands rest).map fun cut => (c :: cut.1, cut.2)

/-- `$` -/
def atEnd (text : Text) : Bool := text = [] || text = ['\n']

theorem finditer_eq_nil {pattern : Pattern M} {text : Text} :
    finditer pattern text = [] ↔ ∀ rest, rest ≠ [] → rest <:+ text → pattern rest = none := by
  induction text with
  | nil =>
    refine iff_of_true rfl fun rest hne hrest => ?_
    exact absurd (List.suffix_nil.mp hrest) hne
  | cons c text ih =>
    have hparts : parts pattern (c :: text) =
        match pattern (c :: text) with
        | some (m, length) =>
          .inr (m, (c :: text).take length) :: partsFrom pattern (length - 1) text
        | none => .inl c :: parts pattern text := rfl
    unfold finditer
    rw [hparts]
    cases hfound : pattern (c :: text) with
    | none =>
      dsimp only
      rw [List.filterMap_cons_none rfl]
      refine ih.trans ⟨fun h rest hne hrest => ?_, fun h rest hne hrest => ?_⟩
      · rcases List.suffix_cons_iff.mp hrest with rfl | hrest
        · exact hfound
        · exact h rest hne hrest
      · exact h rest hne (hrest.trans (List.suffix_cons c text))
    | some found =>
      refine iff_of_false ?_ fun h => ?_
      · exact List.cons_ne_nil _ _
      · have hnone := h (c :: text) (List.cons_ne_nil _ _) (List.suffix_refl _)
        rw [hfound] at hnone
        cases hnone

/-- A tag that is closed stays closed. -/
theorem tagged_append {start stop text : Text} {found : (Text × Text) × Nat}
    (h : tagged start stop text = some found) (more : Text) :
    tagged start stop (text ++ more) = some found := by
  unfold tagged at h ⊢
  split at h
  · rename_i hstart
    have hpre := List.isPrefixOf_iff_prefix.mp hstart
    rw [if_pos (List.isPrefixOf_iff_prefix.mpr (hpre.trans (List.prefix_append _ more)))]
    rw [List.drop_append_of_le_length hpre.length_le]
    dsimp only at h ⊢
    split at h
    · cases h
    · rename_i n hn
      split_ifs at h with hzero
      obtain ⟨m, hm, rfl⟩ := Option.map_eq_some_iff.mp h
      have hle := find_add_length_le hn
      rw [List.length_singleton] at hle
      have hbody := find_append_right hm more
      rw [find_append_right hn more]
      dsimp only
      rw [if_neg hzero, List.drop_append_of_le_length hle, hbody, Option.map_some,
        List.take_append_of_le_length (find_le_length hm),
        List.take_append_of_le_length (by omega)]
  · cases h

theorem finditer_append {start stop text : Text} (h : finditer (tagged start stop) text ≠ [])
    (more : Text) : finditer (tagged start stop) (text ++ more) ≠ [] := by
  rw [ne_eq, finditer_eq_nil] at h ⊢
  push Not at h ⊢
  obtain ⟨rest, hne, ⟨front, rfl⟩, hfound⟩ := h
  obtain ⟨found, hfound⟩ := Option.ne_none_iff_exists'.mp hfound
  refine ⟨rest ++ more, by simp [hne], ⟨front, (List.append_assoc _ _ _).symm⟩, ?_⟩
  rw [tagged_append hfound more]
  exact Option.some_ne_none _

example : finditer (between "<".toList ">".toList) "a<b><c>".toList = [['b'], ['c']] := by decide

end SglJax.Text
