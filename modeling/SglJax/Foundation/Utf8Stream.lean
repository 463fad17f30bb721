import SglJax.Foundation.Utf8

/-! Decoding bytes that come in pieces: the state of the decoder between two pieces, and
the characters that lie across a cut. -/
namespace SglJax.Utf8

/-! ### The decoder between two pieces -/

/-- The text that the bytes settle, and the state after them. -/
def scan : Option Partial → List UInt8 → Text × Option Partial
  | p, [] => ([], p)
  | p, byte :: rest =>
    let later := scan (next p byte).2 rest
    ((next p byte).1 ++ later.1, later.2)

/-- An open character at the end is one replacement character. -/
def openText : Option Partial → Text
  | none => []
  | some _ => [replacement]

/-- The bytes end on a character boundary. -/
def Complete (bytes : List UInt8) : Prop := (scan none bytes).2 = none

instance (bytes : List UInt8) : Decidable (Complete bytes) :=
  inferInstanceAs (Decidable (_ = _))

variable {p : Option Partial} {q : Partial} {byte : UInt8} {bytes front rest : List UInt8}

theorem decodeFrom_cons (p : Option Partial) (byte : UInt8) (rest : List UInt8) :
    decodeFrom p (byte :: rest) = (next p byte).1 ++ decodeFrom (next p byte).2 rest := by
  cases p <;> rfl

theorem decodeFrom_eq (p : Option Partial) (bytes : List UInt8) :
    decodeFrom p bytes = (scan p bytes).1 ++ openText (scan p bytes).2 := by
  induction bytes generalizing p with
  | nil => cases p <;> rfl
  | cons byte rest ih =>
    rw [decodeFrom_cons, ih]
    exact (List.append_assoc _ _ _).symm

theorem scan_append (p : Option Partial) (front rest : List UInt8) :
    scan p (front ++ rest) =
      ((scan p front).1 ++ (scan (scan p front).2 rest).1, (scan (scan p front).2 rest).2) := by
  induction front generalizing p with
  | nil => rfl
  | cons byte front ih =>
    have hstep : ∀ bytes, scan p (byte :: bytes) =
        ((next p byte).1 ++ (scan (next p byte).2 bytes).1, (scan (next p byte).2 bytes).2) :=
      fun _ => rfl
    rw [List.cons_append, hstep, hstep, ih, List.append_assoc]

theorem decodeFrom_append (p : Option Partial) (front rest : List UInt8) :
    decodeFrom p (front ++ rest) = (scan p front).1 ++ decodeFrom (scan p front).2 rest := by
  rw [decodeFrom_eq, decodeFrom_eq, scan_append, List.append_assoc]

theorem decode_append (front rest : List UInt8) :
    decode (front ++ rest) = (scan none front).1 ++ decodeFrom (scan none front).2 rest :=
  decodeFrom_append none front rest

theorem Complete.decode_append (h : Complete front) (rest : List UInt8) :
    decode (front ++ rest) = decode front ++ decode rest := by
  have hfront : decode front = (scan none front).1 := by
    unfold decode
    rw [decodeFrom_eq, h]
    exact List.append_nil _
  rw [Utf8.decode_append, h, hfront]
  rfl

theorem Complete.append (hfront : Complete front) (hrest : Complete rest) :
    Complete (front ++ rest) := by
  unfold Complete at hfront hrest ⊢
  rw [scan_append, hfront]
  exact hrest

theorem complete_of_getLast (h : (decode bytes).getLast? ≠ some replacement) : Complete bytes := by
  unfold Complete
  unfold decode at h
  rw [decodeFrom_eq] at h
  cases hstate : (scan none bytes).2 with
  | none => rfl
  | some p =>
    rw [hstate] at h
    exact absurd List.getLast?_concat h

/-! ### Where a character begins -/

theorem begin_fst_eq_nil : (begin byte).1 = [] ↔ ∃ p, (begin byte).2 = some p := by
  unfold begin
  split_ifs <;> simp

/-- A byte that continues a character begins none. -/
theorem begin_of_tail (hlow : 0x80 ≤ byte) (hhigh : byte ≤ 0xbf) :
    begin byte = ([replacement], none) := by
  have hlow' : 0x80 ≤ byte.toNat := UInt8.le_iff_toNat_le.mp hlow
  have hhigh' : byte.toNat ≤ 0xbf := UInt8.le_iff_toNat_le.mp hhigh
  have hbelow : ∀ bound : UInt8, 0xbf < bound.toNat → ¬ bound ≤ byte := by
    intro bound hbound hle
    have := UInt8.le_iff_toNat_le.mp hle
    omega
  have hascii : ¬ byte ≤ 0x7f := by
    intro hle
    have : byte.toNat ≤ 0x7f := UInt8.le_iff_toNat_le.mp hle
    omega
  unfold begin
  rw [if_neg hascii, if_neg fun h => hbelow 0xc2 (by decide) h.1,
    if_neg fun h => hbelow 0xe0 (by decide) h.1, if_neg fun h => hbelow 0xf0 (by decide) h.1]

/-- The next byte of the character is looked for in the range of the tails. -/
def Sound (p : Option Partial) : Prop := ∀ q, p = some q → 0x80 ≤ q.low ∧ q.high ≤ 0xbf

theorem sound_none : Sound none := fun _ h => by cases h

theorem sound_begin (byte : UInt8) : Sound (begin byte).2 := by
  intro q hq
  unfold begin at hq
  split_ifs at hq <;> simp only [Option.some.injEq] at hq <;> subst hq <;>
    constructor <;> dsimp only <;> decide

theorem Sound.next (byte : UInt8) : Sound (next p byte).2 := by
  cases p with
  | none => exact sound_begin byte
  | some q =>
    unfold Utf8.next
    dsimp only
    split_ifs with hin hlast
    · exact sound_none
    · intro q' hq'
      obtain rfl := Option.some.inj hq'
      exact ⟨UInt8.le_refl _, UInt8.le_refl _⟩
    · exact sound_begin byte

theorem sound_scan (hp : Sound p) (bytes : List UInt8) : Sound (scan p bytes).2 := by
  induction bytes generalizing p with
  | nil => exact hp
  | cons byte rest ih => exact ih (Sound.next byte)

theorem next_of_begins (hp : Sound p) (h : (begin byte).1 = []) :
    (next p byte).2 = (begin byte).2 := by
  cases p with
  | none => rfl
  | some q =>
    unfold next
    dsimp only
    split_ifs with hin hlast
    · obtain ⟨hlow, hhigh⟩ := hp q rfl
      rw [begin_of_tail (UInt8.le_trans hlow hin.1) (UInt8.le_trans hin.2 hhigh)] at h
      cases h
    · obtain ⟨hlow, hhigh⟩ := hp q rfl
      rw [begin_of_tail (UInt8.le_trans hlow hin.1) (UInt8.le_trans hin.2 hhigh)] at h
      cases h
    · rfl

/-- A decoder that starts in the middle of the bytes ends where the whole decoder does. -/
theorem scan_none_of_scan (hp : Sound p) (h : (scan p bytes).2 = none) :
    (scan none bytes).2 = none := by
  induction bytes generalizing p with
  | nil => rfl
  | cons byte rest ih =>
    have hrest : (scan (next p byte).2 rest).2 = none := h
    have hgoal : (scan (begin byte).2 rest).2 = none := by
      cases p with
      | none => exact hrest
      | some q =>
        by_cases hin : q.low ≤ byte ∧ byte ≤ q.high
        · obtain ⟨hlow, hhigh⟩ := hp q rfl
          rw [begin_of_tail (UInt8.le_trans hlow hin.1) (UInt8.le_trans hin.2 hhigh)]
          exact ih (Sound.next byte) hrest
        · have hsame : (next (some q) byte).2 = (begin byte).2 := by
            unfold next
            dsimp only
            rw [if_neg hin]
          rw [← hsame]
          exact hrest
    exact hgoal

theorem Complete.suffix (h : Complete (front ++ rest)) : Complete rest := by
  unfold Complete at h
  rw [scan_append] at h
  exact scan_none_of_scan (sound_scan sound_none front) h

/-! ### Cuts -/

/-- A character begins in the bytes in front of the cut and ends behind it. A replacement
character of the text itself does not count: it reads the same when it is cut off. -/
def Cuts (front rest : List UInt8) : Prop :=
  ∃ before x y after char, front = before ++ x ∧ rest = y ++ after ∧ x ≠ [] ∧ y ≠ [] ∧
    decode (x ++ y) = [char] ∧ char ≠ replacement

theorem not_cuts_nil (front : List UInt8) : ¬ Cuts front [] := by
  rintro ⟨-, -, y, after, -, -, hrest, -, hy, -, -⟩
  exact hy (List.append_eq_nil_iff.mp hrest.symm).1

theorem not_cuts_front_nil (rest : List UInt8) : ¬ Cuts [] rest := by
  rintro ⟨before, x, -, -, -, hfront, -, hx, -, -, -⟩
  exact hx (List.append_eq_nil_iff.mp hfront.symm).2

theorem Cuts.append (h : Cuts front rest) (more : List UInt8) : Cuts front (rest ++ more) := by
  obtain ⟨before, x, y, after, char, hfront, hrest, h⟩ := h
  exact ⟨before, x, y, after ++ more, char, hfront, by rw [hrest, List.append_assoc], h⟩

theorem decodeFrom_ne_nil (h : p ≠ none ∨ bytes ≠ []) : decodeFrom p bytes ≠ [] := by
  induction bytes generalizing p with
  | nil =>
    cases p with
    | none => simp at h
    | some q => exact List.cons_ne_nil _ _
  | cons byte rest ih =>
    rw [decodeFrom_cons]
    intro hnil
    obtain ⟨hfst, hsnd⟩ := List.append_eq_nil_iff.mp hnil
    have hopen : (next p byte).2 ≠ none := by
      cases p with
      | none =>
        obtain ⟨q, hq⟩ := begin_fst_eq_nil.mp hfst
        rw [show (next none byte).2 = some q from hq]
        exact Option.some_ne_none q
      | some q =>
        unfold next at hfst ⊢
        dsimp only at hfst ⊢
        split_ifs at hfst ⊢ with hin hlast
        exact Option.some_ne_none _
    exact ih (.inl hopen) hsnd

/-- The bytes of an open character lie at the end. -/
theorem exists_open (h : (scan none front).2 = some q) :
    ∃ before x, front = before ++ x ∧ x ≠ [] ∧ scan none x = ([], some q) := by
  induction front using List.reverseRecOn generalizing q with
  | nil => cases h
  | append_singleton front byte ih =>
    have hnext : (next (scan none front).2 byte).2 = some q := by
      rw [scan_append] at h
      exact h
    have hbegins : (begin byte).2 = some q →
        ∃ before x, front ++ [byte] = before ++ x ∧ x ≠ [] ∧ scan none x = ([], some q) := by
      intro hbegin
      refine ⟨front, [byte], rfl, List.cons_ne_nil _ _, ?_⟩
      have hnil := begin_fst_eq_nil.mpr ⟨q, hbegin⟩
      exact Prod.ext (by rw [← hnil]; exact List.append_nil _) hbegin
    cases hstate : (scan none front).2 with
    | none =>
      rw [hstate] at hnext
      exact hbegins hnext
    | some r =>
      rw [hstate] at hnext
      by_cases hin : r.low ≤ byte ∧ byte ≤ r.high
      · obtain ⟨before, x, rfl, -, hscan⟩ := ih hstate
        refine ⟨before, x ++ [byte], List.append_assoc _ _ _, by simp, ?_⟩
        rw [scan_append, hscan]
        unfold next at hnext
        dsimp only at hnext
        rw [if_pos hin] at hnext
        unfold scan scan next
        dsimp only
        rw [if_pos hin]
        split_ifs at hnext ⊢ with hlast
        rw [← hnext]
        rfl
      · unfold next at hnext
        dsimp only at hnext
        rw [if_neg hin] at hnext
        exact hbegins hnext

/-- The bytes that end an open character come first. -/
theorem exists_close {char : Char} (h : (decodeFrom (some q) rest).head? = some char)
    (hchar : char ≠ replacement) :
    ∃ y after, rest = y ++ after ∧ y ≠ [] ∧ scan (some q) y = ([char], none) := by
  induction rest generalizing q with
  | nil => exact absurd (Option.some.inj h).symm hchar
  | cons byte rest ih =>
    rw [decodeFrom_cons] at h
    have hscan : ∀ y, scan (some q) (byte :: y) = ((next (some q) byte).1 ++
        (scan (next (some q) byte).2 y).1, (scan (next (some q) byte).2 y).2) := fun _ => rfl
    unfold next at h hscan
    dsimp only at h hscan
    split_ifs at h hscan with hin hlast
    · refine ⟨[byte], rest, rfl, List.cons_ne_nil _ _, ?_⟩
      rw [hscan, ← Option.some.inj h]
      rfl
    · obtain ⟨y, after, rfl, -, hy⟩ := ih h
      refine ⟨byte :: y, after, rfl, List.cons_ne_nil _ _, ?_⟩
      rw [hscan, hy]
      rfl
    · exact absurd (Option.some.inj h).symm hchar

theorem scan_of_decodeFrom {char : Char} (h : decodeFrom p bytes = [char])
    (hchar : char ≠ replacement) : scan p bytes = ([char], none) := by
  rw [decodeFrom_eq] at h
  cases hstate : (scan p bytes).2 with
  | none =>
    rw [hstate] at h
    refine Prod.ext ?_ hstate
    rw [← h]
    exact (List.append_nil _).symm
  | some q =>
    rw [hstate] at h
    have hlast := congrArg List.getLast? h
    rw [show openText (some q) = [replacement] from rfl, List.getLast?_concat] at hlast
    exact absurd (Option.some.inj hlast).symm hchar

/-- A character is cut when the decoder is inside one and the next bytes end it. -/
theorem cuts_iff : Cuts front rest ↔
    ∃ q, (scan none front).2 = some q ∧
      (decodeFrom (some q) rest).head? ≠ some replacement := by
  constructor
  · rintro ⟨before, x, y, after, char, rfl, rfl, hx, hy, hdecode, hchar⟩
    rw [decode_append] at hdecode
    have hrest : decodeFrom (scan none x).2 y ≠ [] := decodeFrom_ne_nil (.inr hy)
    obtain ⟨hfst, hsnd⟩ : (scan none x).1 = [] ∧ decodeFrom (scan none x).2 y = [char] := by
      rcases List.append_eq_singleton_iff.mp hdecode with h | ⟨-, hnil⟩
      · exact h
      · exact absurd hnil hrest
    cases hstate : (scan none x).2 with
    | none =>
      have hnil : decode x = [] := by
        unfold decode
        rw [decodeFrom_eq, hfst, hstate]
        rfl
      exact absurd hnil (decodeFrom_ne_nil (.inr hx))
    | some q =>
      rw [hstate] at hsnd
      refine ⟨q, ?_, ?_⟩
      · obtain ⟨byte, x, rfl⟩ := List.exists_cons_of_ne_nil hx
        have hbegins : (begin byte).1 = [] := (List.append_eq_nil_iff.mp hfst).1
        have hsame := next_of_begins (sound_scan sound_none before) hbegins
        rw [scan_append]
        change (scan (next (scan none before).2 byte).2 x).2 = some q
        rw [hsame]
        exact hstate
      · rw [decodeFrom_append, scan_of_decodeFrom hsnd hchar]
        exact fun h => hchar (Option.some.inj h)
  · rintro ⟨q, hstate, hhead⟩
    obtain ⟨before, x, rfl, hx, hopen⟩ := exists_open hstate
    have hne : decodeFrom (some q) rest ≠ [] := decodeFrom_ne_nil (.inl (Option.some_ne_none q))
    obtain ⟨char, text, htext⟩ := List.exists_cons_of_ne_nil hne
    have hchar : char ≠ replacement := by
      rintro rfl
      exact hhead (by rw [htext]; rfl)
    have hfirst : (decodeFrom (some q) rest).head? = some char := by rw [htext]; rfl
    obtain ⟨y, after, rfl, hy, hclose⟩ := exists_close hfirst hchar
    refine ⟨before, x, y, after, char, rfl, rfl, hx, hy, ?_, hchar⟩
    rw [decode_append, hopen, decodeFrom_eq, hclose]
    rfl

instance (front rest : List UInt8) : Decidable (Cuts front rest) :=
  decidable_of_iff
    (((scan none front).2.map fun q => (decodeFrom (some q) rest).head?).any
      (fun head => head ≠ some replacement) = true) <| by
    rw [cuts_iff]
    cases (scan none front).2 with
    | none => simp
    | some q => simp

/-- The text up to a cut stays when no character is cut. -/
theorem decode_prefix_iff : decode front <+: decode (front ++ rest) ↔ ¬ Cuts front rest := by
  rw [cuts_iff, decode_append]
  unfold decode
  rw [decodeFrom_eq none front, List.prefix_append_right_inj]
  cases hstate : (scan none front).2 with
  | none => exact iff_of_true List.nil_prefix (by rintro ⟨q, hq, -⟩; cases hq)
  | some q =>
    have hne : decodeFrom (some q) rest ≠ [] := decodeFrom_ne_nil (.inl (Option.some_ne_none q))
    obtain ⟨char, text, htext⟩ := List.exists_cons_of_ne_nil hne
    rw [htext]
    have hopen : openText (some q) = [replacement] := rfl
    rw [hopen]
    constructor
    · rintro hpre ⟨q', hq', hhead⟩
      cases hq'
      rw [htext] at hhead
      have := (List.cons_prefix_cons.mp hpre).1
      exact hhead (by rw [this]; rfl)
    · intro h
      have hchar : char = replacement := by
        by_contra hchar
        exact h ⟨q, rfl, by rw [htext]; exact fun h => hchar (Option.some.inj h)⟩
      rw [hchar]
      exact List.cons_prefix_cons.mpr ⟨rfl, List.nil_prefix⟩

/-! ### Texts that are sent piece by piece -/

/-- What is sent of each text when what the one before it reached is cut off. -/
def pieces : Nat → List Text → List Text
  | _, [] => []
  | sent, text :: rest => text.drop sent :: pieces text.length rest

/-- The texts of bytes that come in chunks. -/
def decodings : List UInt8 → List (List UInt8) → List Text
  | _, [] => []
  | front, chunk :: rest => decode (front ++ chunk) :: decodings (front ++ chunk) rest

/-- No character is cut between two chunks. -/
def Uncut (front : List UInt8) (chunks : List (List UInt8)) : Prop :=
  ∀ i < chunks.length, ¬ Cuts (front ++ (chunks.take i).flatten) (chunks.drop i).flatten

instance (front : List UInt8) (chunks : List (List UInt8)) : Decidable (Uncut front chunks) :=
  inferInstanceAs (Decidable (∀ i < chunks.length, _))

variable {chunk : List UInt8} {chunks : List (List UInt8)}

theorem pieces_take (sent : Nat) (texts : List Text) (i : Nat) :
    (pieces sent texts).take i = pieces sent (texts.take i) := by
  induction texts generalizing sent i with
  | nil => simp [pieces]
  | cons text rest ih =>
    cases i with
    | zero => rfl
    | succ i =>
      rw [List.take_succ_cons]
      unfold pieces
      rw [List.take_succ_cons, ih]

theorem decodings_take (front : List UInt8) (chunks : List (List UInt8)) (i : Nat) :
    (decodings front chunks).take i = decodings front (chunks.take i) := by
  induction chunks generalizing front i with
  | nil => simp [decodings]
  | cons chunk rest ih =>
    cases i with
    | zero => rfl
    | succ i =>
      rw [List.take_succ_cons]
      unfold decodings
      rw [List.take_succ_cons, ih]

theorem decodings_getElem? (front : List UInt8) (chunks : List (List UInt8)) (i : Nat) :
    (decodings front chunks)[i]? = if i < chunks.length then
      some (decode (front ++ (chunks.take (i + 1)).flatten)) else none := by
  induction chunks generalizing front i with
  | nil => simp [decodings]
  | cons chunk rest ih =>
    unfold decodings
    cases i with
    | zero => simp
    | succ i =>
      rw [List.getElem?_cons_succ, ih]
      simp

theorem uncut_cons : Uncut front (chunk :: chunks) ↔
    ¬ Cuts front (chunk :: chunks).flatten ∧ Uncut (front ++ chunk) chunks := by
  unfold Uncut
  rw [List.length_cons, Nat.forall_lt_succ_left]
  simp only [List.take_zero, List.flatten_nil, List.append_nil, List.drop_zero,
    List.take_succ_cons, List.drop_succ_cons, List.flatten_cons, List.append_assoc]

theorem Uncut.take (h : Uncut front chunks) (i : Nat) : Uncut front (chunks.take i) := by
  intro j hj hcuts
  rw [List.length_take] at hj
  refine h j (by omega) ?_
  rw [List.take_take, Nat.min_eq_left (by omega)] at hcuts
  have hdrop : chunks.drop j = (chunks.take i).drop j ++ chunks.drop i := by
    conv_lhs => rw [← List.take_append_drop i chunks]
    rw [List.drop_append_of_le_length (by rw [List.length_take]; omega)]
  rw [hdrop, List.flatten_append]
  exact hcuts.append _

/-- The pieces make up the whole text exactly when no character is cut between two chunks. -/
theorem pieces_decodings_iff (h : ¬ Cuts front chunks.flatten) :
    decode front ++ (pieces (decode front).length (decodings front chunks)).flatten =
        decode (front ++ chunks.flatten) ↔ Uncut front chunks := by
  induction chunks generalizing front with
  | nil =>
    refine iff_of_true ?_ fun i hi => absurd hi (Nat.not_lt_zero i)
    rw [List.flatten_nil, List.append_nil]
    exact List.append_nil _
  | cons chunk rest ih =>
    have hfirst : decode front <+: decode (front ++ chunk) := by
      rw [decode_prefix_iff]
      intro hcuts
      exact h (hcuts.append _)
    have hsent : decode front ++ (decode (front ++ chunk)).drop (decode front).length =
        decode (front ++ chunk) := by
      obtain ⟨more, hmore⟩ := hfirst
      rw [← hmore, List.drop_left]
    unfold decodings pieces
    rw [List.flatten_cons, ← List.append_assoc, hsent, List.flatten_cons, ← List.append_assoc,
      uncut_cons]
    by_cases hcuts : Cuts (front ++ chunk) rest.flatten
    · refine iff_of_false ?_ ?_
      · intro heq
        exact decode_prefix_iff.mp ⟨_, heq⟩ hcuts
      · rintro ⟨-, huncut⟩
        cases rest with
        | nil => exact not_cuts_nil _ hcuts
        | cons next rest => exact (uncut_cons.mp huncut).1 hcuts
    · rw [ih hcuts]
      exact (and_iff_right h).symm

/-- What was sent of uncut characters begins the text of the next piece. -/
theorem Uncut.pieces_prefix {i : Nat} {text : Text} (h : Uncut [] chunks)
    (htext : (decodings [] chunks)[i]? = some text) :
    (pieces 0 (decodings [] (chunks.take i))).flatten <+: text := by
  rw [decodings_getElem?] at htext
  split_ifs at htext with hi
  have hsent : (pieces 0 (decodings [] (chunks.take i))).flatten =
      decode (chunks.take i).flatten :=
    (pieces_decodings_iff (not_cuts_front_nil _)).mpr (h.take i)
  rw [hsent, ← Option.some.inj htext, List.nil_append,
    List.take_succ_eq_append_getElem hi, List.flatten_append, decode_prefix_iff]
  intro hcuts
  refine h i hi ?_
  rw [List.drop_eq_getElem_cons hi, List.flatten_cons]
  exact (List.flatten_singleton ▸ hcuts).append _

end SglJax.Utf8
