import SglJax.Managers.DetokenizerRuns

/-! What a request gets from the messages that it shares with others. Its ids are decoded
with the settings of the first request of each message. -/
namespace SglJax.Managers.Detokenizer

open Utf8 (replacement)

/-! ### The messages of a request -/

def Entry.taken (entry : Entry) : Nat := if entry.stopsAtToken then 1 else 0

/-- The entries that `stream_output_generation` makes for a request: the first one holds
the ids up to its read offset, and a stop token comes in with the entry that it ends. -/
def Stream : List Entry → Prop
  | [] => True
  | first :: rest =>
    first.decodedText = [] ∧ first.readOffset + first.taken ≤ first.decodeIds.length ∧
      ∀ entry ∈ rest, entry.taken ≤ entry.decodeIds.length

/-- The entry, after `received` ids, has ids beyond the read offset to decode. -/
def Exposed (readOffset received : Nat) (entry : Entry) : Prop :=
  readOffset + entry.taken < received + entry.decodeIds.length

/-- The settings agree in all messages with ids to decode. -/
def SameFlags (readOffset : Nat) : Nat → List (Flags × Entry) → List (Flags × Entry) → Prop
  | received, (flags, entry) :: rest, (flags', _) :: rest' =>
    (Exposed readOffset received entry → flags = flags') ∧
      SameFlags readOffset (received + entry.decodeIds.length) rest rest'
  | _, _, _ => True

/-- Each entry after `received` ids reaches the read offset. -/
def Paced (readOffset : Nat) : Nat → List (Flags × Entry) → Prop
  | _, [] => True
  | received, (_, entry) :: rest =>
    readOffset + entry.taken ≤ received + entry.decodeIds.length ∧
      entry.taken ≤ entry.decodeIds.length ∧
      Paced readOffset (received + entry.decodeIds.length) rest

theorem paced_of_le {readOffset received : Nat} {own : List (Flags × Entry)}
    (hreceived : readOffset ≤ received)
    (h : ∀ entry ∈ own.map Prod.snd, entry.taken ≤ entry.decodeIds.length) :
    Paced readOffset received own := by
  induction own generalizing received with
  | nil => trivial
  | cons pair rest ih =>
    have hpair := h pair.2 (by simp)
    refine ⟨by omega, hpair, ih (by omega) fun entry hmem => h entry ?_⟩
    exact List.mem_cons_of_mem _ hmem

theorem paced_of_stream {pair : Flags × Entry} {rest : List (Flags × Entry)}
    (h : Stream ((pair :: rest).map Prod.snd)) : Paced pair.2.readOffset 0 (pair :: rest) := by
  obtain ⟨_, hfirst, hrest⟩ := h
  exact ⟨by omega, by omega, paced_of_le (by omega) hrest⟩

/-! ### Nothing read yet -/

/-- The status after `ids` were received and none of them was read. -/
structure Unread (readOffset : Nat) (ids : List Nat) (s : DecodeStatus) : Prop where
  decodedText : s.decodedText = []
  decodeIds : s.decodeIds = ids
  surrOffset : s.surrOffset = 0
  readOffset : s.readOffset = readOffset

def blank (readOffset : Nat) : DecodeStatus where
  decodedText := []
  decodeIds := []
  surrOffset := 0
  readOffset := readOffset
  sentOffset := 0

theorem unread_blank (readOffset : Nat) : Unread readOffset [] (blank readOffset) :=
  ⟨rfl, rfl, rfl, rfl⟩

theorem steps_cons {tokenizer : Tokenizer} {flags : Flags} {status : Option DecodeStatus}
    {entry : Entry} {s : DecodeStatus} {output : Output} {rest : List (Flags × Entry)}
    (h : step tokenizer flags status entry = some (s, output)) :
    steps tokenizer status ((flags, entry) :: rest) =
      (steps tokenizer (some s) rest).map (output :: ·) := by
  rw [steps, h]

/-- The first entry comes as if to a status without ids. -/
theorem steps_none {tokenizer : Tokenizer} {pair : Flags × Entry} {rest : List (Flags × Entry)}
    (h : pair.2.decodedText = []) :
    steps tokenizer none (pair :: rest) =
      steps tokenizer (some (blank pair.2.readOffset)) (pair :: rest) := by
  obtain ⟨flags, entry⟩ := pair
  have hreceive : DecodeStatus.receive entry none =
      DecodeStatus.receive entry (some (blank entry.readOffset)) := by
    unfold DecodeStatus.receive DecodeStatus.new blank
    dsimp only at h ⊢
    rw [h, List.nil_append]
  unfold steps step
  rw [hreceive]

variable {readOffset : Nat} {ids : List Nat} {s : DecodeStatus} {entry : Entry}

theorem Unread.receive (h : Unread readOffset ids s) (entry : Entry) :
    Unread readOffset (ids ++ entry.decodeIds) (DecodeStatus.receive entry (some s)) where
  decodedText := h.decodedText
  decodeIds := by rw [← h.decodeIds]; rfl
  surrOffset := h.surrOffset
  readOffset := h.readOffset

/-- The ids without the stop token. -/
def Entry.readable (entry : Entry) (ids : List Nat) : List Nat :=
  ids.take (ids.length - entry.taken)

theorem Unread.ids_eq (h : Unread readOffset ids s)
    (hlength : readOffset + entry.taken ≤ ids.length) :
    s.ids entry = some (entry.readable ids, ids.take readOffset) := by
  have hsurr : s.surrIds = ids.take readOffset := by
    unfold DecodeStatus.surrIds
    rw [h.surrOffset, h.readOffset, h.decodeIds, List.drop_zero, Nat.sub_zero]
  have hread : s.readIds entry = some (entry.readable ids) := by
    unfold DecodeStatus.readIds Entry.trimIds Entry.readable
    unfold Entry.taken at hlength ⊢
    rw [h.surrOffset, h.decodeIds, List.drop_zero]
    split
    · rename_i hstops
      rw [if_pos hstops] at hlength
      have hne : ids ≠ [] := by
        apply List.ne_nil_of_length_pos
        omega
      rw [if_neg hne, List.dropLast_eq_take]
    · rw [Nat.sub_zero, List.take_length]
  unfold DecodeStatus.ids
  rw [hsurr, hread, Option.map_some]

/-- A text that is not complete leaves the status unread. -/
theorem Unread.emit (h : Unread readOffset ids s) {text : Text} (htext : isComplete text = false) :
    s.emit entry text = ({ s with sentOffset := (entry.trimText text).length },
      (entry.trimText text).drop s.sentOffset) := by
  have hstays : entry.advances text = false := by
    unfold Entry.advances
    rw [htext, Bool.and_false]
  unfold DecodeStatus.emit findPrintableText
  rw [hstays]
  simp only [Bool.false_eq_true, if_false, ite_self, h.decodedText, List.nil_append]

theorem Unread.sent (h : Unread readOffset ids s) (n : Nat) :
    Unread readOffset ids { s with sentOffset := n } :=
  ⟨h.decodedText, h.decodeIds, h.surrOffset, h.readOffset⟩

theorem trimText_nil (entry : Entry) : entry.trimText [] = [] := by
  unfold Entry.trimText
  split
  · split
    · exact List.take_nil
    · rfl
  · rfl

theorem newText_self (tokenizer : Tokenizer) (flags : Flags) (ids : List Nat) :
    newText tokenizer flags ids ids = [] :=
  List.drop_length

/-- A message without ids to decode. -/
theorem Unread.step_of_not_exposed (tokenizer : Tokenizer) (h : Unread readOffset ids s)
    (hpaced : readOffset + entry.taken ≤ ids.length + entry.decodeIds.length)
    (hnone : ¬ Exposed readOffset ids.length entry) :
    ∃ s' output, Unread readOffset (ids ++ entry.decodeIds) s' ∧ s'.sentOffset = 0 ∧
      ∀ flags, step tokenizer flags (some s) entry = some (s', output) := by
  have hreceive := h.receive entry
  have hall : entry.readable (ids ++ entry.decodeIds) = (ids ++ entry.decodeIds).take readOffset := by
    unfold Exposed at hnone
    unfold Entry.readable
    congr 1
    rw [List.length_append]
    omega
  have hids := hreceive.ids_eq (by rw [List.length_append]; exact hpaced)
  rw [hall] at hids
  let all := (ids ++ entry.decodeIds).take readOffset
  refine ⟨_, ⟨entry.rid, [], newIds tokenizer entry all all⟩, hreceive.sent 0, rfl, ?_⟩
  intro flags
  unfold step
  dsimp only
  rw [hids, Option.map_some]
  unfold DecodeStatus.send
  dsimp only
  rw [newText_self, hreceive.emit rfl, trimText_nil, List.drop_nil, List.length_nil]

/-! ### Enough -/

/-- Once there are ids to decode there are in every later message. -/
theorem SameFlags.eq_of_lt {received : Nat} {own own' : List (Flags × Entry)}
    (hown : own.map Prod.snd = own'.map Prod.snd)
    (htaken : ∀ entry ∈ own.map Prod.snd, entry.taken ≤ entry.decodeIds.length)
    (hreceived : readOffset < received) (hflags : SameFlags readOffset received own own') :
    own = own' := by
  induction own generalizing own' received with
  | nil =>
    symm
    simpa using hown.symm
  | cons pair rest ih =>
    cases own' with
    | nil => cases hown
    | cons pair' rest' =>
      obtain ⟨flags, entry⟩ := pair
      obtain ⟨flags', entry'⟩ := pair'
      obtain ⟨heq, hrest⟩ := List.cons.inj hown
      dsimp only at heq
      have htakenHere : entry.taken ≤ entry.decodeIds.length := htaken entry (by simp)
      obtain ⟨hsame, hlater⟩ := hflags
      have hexposed : Exposed readOffset received entry := by
        unfold Exposed
        omega
      rw [hsame hexposed, heq, ih hrest (fun e he => htaken e (List.mem_cons_of_mem _ he)) (by omega)
        hlater]

theorem Paced.taken_le {received : Nat} {own : List (Flags × Entry)}
    (h : Paced readOffset received own) :
    ∀ entry ∈ own.map Prod.snd, entry.taken ≤ entry.decodeIds.length := by
  induction own generalizing received with
  | nil => intro entry hmem; cases hmem
  | cons pair rest ih =>
    intro entry hmem
    rcases List.mem_cons.mp hmem with rfl | hmem
    · exact h.2.1
    · exact ih h.2.2 entry hmem

theorem steps_eq_of_sameFlags {tokenizer : Tokenizer} {own own' : List (Flags × Entry)}
    (hown : own.map Prod.snd = own'.map Prod.snd) (hunread : Unread readOffset ids s)
    (hpaced : Paced readOffset ids.length own) (hflags : SameFlags readOffset ids.length own own') :
    steps tokenizer (some s) own = steps tokenizer (some s) own' := by
  induction own generalizing own' ids s with
  | nil =>
    have hnil : own' = [] := by simpa using hown.symm
    rw [hnil]
  | cons pair rest ih =>
    cases own' with
    | nil => cases hown
    | cons pair' rest' =>
      obtain ⟨flags, entry⟩ := pair
      obtain ⟨flags', entry'⟩ := pair'
      obtain ⟨heq, hrest⟩ := List.cons.inj hown
      dsimp only at heq
      subst heq
      obtain ⟨hsame, hlater⟩ := hflags
      by_cases hexposed : Exposed readOffset ids.length entry
      · have hreceived : readOffset < ids.length + entry.decodeIds.length := by
          unfold Exposed at hexposed
          omega
        rw [hsame hexposed, hlater.eq_of_lt hrest hpaced.2.2.taken_le hreceived]
      · obtain ⟨s', output, hunread', _, hstep⟩ :=
          hunread.step_of_not_exposed tokenizer hpaced.1 hexposed
        have hlength : ids.length + entry.decodeIds.length = (ids ++ entry.decodeIds).length :=
          List.length_append.symm
        rw [steps_cons (hstep flags), steps_cons (hstep flags'),
          ih hrest hunread' (hlength ▸ hpaced.2.2) (hlength ▸ hlater)]

/-! ### Every message is handled -/

/-- The offsets stay within the ids. -/
structure Bounded (s : DecodeStatus) : Prop where
  surrOffset : s.surrOffset ≤ s.decodeIds.length
  readOffset : s.readOffset ≤ s.decodeIds.length

theorem Bounded.receive (h : Bounded s) (entry : Entry) :
    Bounded (DecodeStatus.receive entry (some s)) := by
  have hlength : (s.decodeIds ++ entry.decodeIds).length =
      s.decodeIds.length + entry.decodeIds.length := List.length_append
  have hsurr := h.surrOffset
  have hread := h.readOffset
  exact ⟨by unfold DecodeStatus.receive; dsimp only; omega,
    by unfold DecodeStatus.receive; dsimp only; omega⟩

theorem Bounded.emit (h : Bounded s) (entry : Entry) (text : Text) :
    Bounded (s.emit entry text).1 := by
  unfold DecodeStatus.emit
  dsimp only
  split
  · exact ⟨h.readOffset, le_refl _⟩
  · exact ⟨h.surrOffset, h.readOffset⟩

theorem ids_isSome (h : s.surrOffset + entry.taken ≤ s.decodeIds.length) :
    (s.ids entry).isSome := by
  unfold DecodeStatus.ids DecodeStatus.readIds Entry.trimIds
  rw [Option.isSome_map]
  unfold Entry.taken at h
  split
  · rename_i hstops
    rw [if_pos hstops] at h
    rw [if_neg]
    · rfl
    · intro hnil
      have := List.drop_eq_nil_iff.mp hnil
      omega
  · rfl

theorem Bounded.steps_isSome {tokenizer : Tokenizer} {own : List (Flags × Entry)}
    (h : Bounded s) (htaken : ∀ entry ∈ own.map Prod.snd, entry.taken ≤ entry.decodeIds.length) :
    (steps tokenizer (some s) own).isSome := by
  induction own generalizing s with
  | nil => rfl
  | cons pair rest ih =>
    obtain ⟨flags, entry⟩ := pair
    have hsurr := h.surrOffset
    have hhere : entry.taken ≤ entry.decodeIds.length := htaken entry (by simp)
    have hids : ((DecodeStatus.receive entry (some s)).ids entry).isSome := by
      apply ids_isSome
      unfold DecodeStatus.receive
      dsimp only
      rw [List.length_append]
      omega
    obtain ⟨ids, hids⟩ := Option.isSome_iff_exists.mp hids
    unfold steps step
    dsimp only
    rw [hids, Option.map_some]
    dsimp only
    rw [Option.isSome_map]
    apply ih ((h.receive entry).emit entry _)
    exact fun e hmem => htaken e (List.mem_cons_of_mem _ hmem)

theorem steps_isSome (tokenizer : Tokenizer) {own : List (Flags × Entry)}
    (h : Stream (own.map Prod.snd)) : (steps tokenizer none own).isSome := by
  cases own with
  | nil => rfl
  | cons pair rest =>
    obtain ⟨flags, entry⟩ := pair
    obtain ⟨_, hfirst, hrest⟩ := h
    have hbounded : Bounded (DecodeStatus.receive entry none) :=
      ⟨Nat.zero_le _, Nat.le_of_add_right_le hfirst⟩
    have hids : ((DecodeStatus.receive entry none).ids entry).isSome := by
      apply ids_isSome
      unfold DecodeStatus.receive DecodeStatus.new
      dsimp only at hfirst ⊢
      omega
    obtain ⟨ids, hids⟩ := Option.isSome_iff_exists.mp hids
    unfold steps step
    dsimp only
    rw [hids, Option.map_some]
    dsimp only
    rw [Option.isSome_map]
    exact (hbounded.emit entry _).steps_isSome hrest

/-! ### Necessary -/

/-- A tokenizer that says something for a single list of ids, under single settings. What
it says is never complete, so no status is advanced. -/
def marking (flags : Flags) (target : List Nat) (mark : Char) : Tokenizer where
  decode := fun flags' ids => if flags' = flags ∧ ids = target then [mark, replacement] else []
  allSpecialIds := []

/-- What it says in a message that decodes `ids`. -/
def marked (flags : Flags) (target : List Nat) (mark : Char) (flags' : Flags) (ids : List Nat) :
    Text :=
  if flags' = flags ∧ ids = target then [mark, replacement] else []

/-- What is sent then. -/
def said (flags : Flags) (target : List Nat) (mark : Char) (flags' : Flags) (entry : Entry)
    (ids : List Nat) : Text :=
  entry.trimText (marked flags target mark flags' (entry.readable ids))

theorem isComplete_marked (flags : Flags) (target : List Nat) (mark : Char) (flags' : Flags)
    (ids : List Nat) : isComplete (marked flags target mark flags' ids) = false := by
  unfold marked
  split
  · simp [isComplete]
  · rfl

theorem newText_marking {flags flags' : Flags} {target ids surr : List Nat} {mark : Char}
    (h : surr ≠ target) :
    newText (marking flags target mark) flags' ids surr = marked flags target mark flags' ids := by
  unfold newText marking marked
  dsimp only
  rw [if_neg (fun hand => h hand.2), List.length_nil, List.drop_zero]

theorem exists_mark (entry : Entry) : ∃ mark, entry.trimText [mark, replacement] ≠ [] := by
  unfold Entry.trimText
  cases hstop : entry.stop with
  | none => exact ⟨'a', List.cons_ne_nil _ _⟩
  | some matched =>
    cases matched with
    | token id => exact ⟨'a', List.cons_ne_nil _ _⟩
    | str text =>
      have hne : text ≠ [] := by
        unfold Entry.stop at hstop
        split at hstop
        · cases hstop
        · split at hstop
          · cases hstop
          · simpa using (Option.filter_eq_some_iff.mp hstop).2
      obtain ⟨head, tail, rfl⟩ := List.exists_cons_of_ne_nil hne
      obtain ⟨mark, hmark⟩ : ∃ mark : Char, head ≠ mark := by
        by_cases ha : head = 'a'
        · exact ⟨'b', by rw [ha]; decide⟩
        · exact ⟨'a', ha⟩
      refine ⟨mark, ?_⟩
      dsimp only
      split
      · rename_i pos hpos
        unfold Text.find at hpos
        rw [if_neg (by simp [List.isPrefixOf, hmark])] at hpos
        obtain ⟨later, _, rfl⟩ := Option.map_eq_some_iff.mp hpos
        rw [List.take_succ_cons]
        exact List.cons_ne_nil _ _
      · exact List.cons_ne_nil _ _

/-- A message decoded by such a tokenizer. -/
theorem Unread.step_marking {flags flags' : Flags} {target : List Nat} {mark : Char}
    (h : Unread readOffset ids s)
    (hpaced : readOffset + entry.taken ≤ ids.length + entry.decodeIds.length)
    (htarget : readOffset < target.length) :
    ∃ s' outputIds, Unread readOffset (ids ++ entry.decodeIds) s' ∧
      s'.sentOffset = (said flags target mark flags' entry (ids ++ entry.decodeIds)).length ∧
      step (marking flags target mark) flags' (some s) entry =
        some (s', ⟨entry.rid, (said flags target mark flags' entry (ids ++ entry.decodeIds)).drop
          s.sentOffset, outputIds⟩) := by
  have hreceive := h.receive entry
  have hids := hreceive.ids_eq (by rw [List.length_append]; exact hpaced)
  have hsurr : (ids ++ entry.decodeIds).take readOffset ≠ target := by
    intro heq
    have hle := List.length_take_le readOffset (ids ++ entry.decodeIds)
    rw [heq] at hle
    omega
  refine ⟨_, newIds (marking flags target mark) entry (entry.readable (ids ++ entry.decodeIds))
    ((ids ++ entry.decodeIds).take readOffset), hreceive.sent _, rfl, ?_⟩
  unfold step
  dsimp only
  rw [hids, Option.map_some]
  unfold DecodeStatus.send
  dsimp only
  rw [newText_marking hsurr, hreceive.emit (isComplete_marked _ _ _ _ _)]
  rfl

/-- The last message before the one in question says nothing. -/
def Quiet (flags : Flags) (readOffset : Nat) : Nat → List (Flags × Entry) → Prop
  | _, [] => True
  | received, [(flags', entry)] => flags' ≠ flags ∨ ¬ Exposed readOffset received entry
  | received, (_, entry) :: rest => Quiet flags readOffset (received + entry.decodeIds.length) rest

/-- The ids that a list of entries brings. -/
def decodeIds (own : List (Flags × Entry)) : List Nat := own.flatMap fun pair => pair.2.decodeIds

theorem marked_eq_nil {flags flags' : Flags} {target ids : List Nat} {mark : Char}
    (h : flags' ≠ flags ∨ ids ≠ target) : marked flags target mark flags' ids = [] := by
  unfold marked
  rw [if_neg]
  rintro ⟨hflags, hids⟩
  rcases h with h | h
  · exact h hflags
  · exact h hids

theorem steps_marking {flags : Flags} {target : List Nat} (mark : Char)
    {pre : List (Flags × Entry)} (hunread : Unread readOffset ids s)
    (hpaced : Paced readOffset ids.length pre) (htarget : readOffset < target.length)
    (hquiet : Quiet flags readOffset ids.length pre) (hsent : pre = [] → s.sentOffset = 0) :
    ∃ s' outputs, Unread readOffset (ids ++ decodeIds pre) s' ∧ s'.sentOffset = 0 ∧
      outputs.length = pre.length ∧ ∀ rest,
        steps (marking flags target mark) (some s) (pre ++ rest) =
          (steps (marking flags target mark) (some s') rest).map (outputs ++ ·) := by
  induction pre generalizing ids s with
  | nil =>
    refine ⟨s, [], by simpa [decodeIds] using hunread, hsent rfl, rfl, fun rest => ?_⟩
    simp
  | cons pair pre ih =>
    obtain ⟨flags', entry⟩ := pair
    obtain ⟨s', output, hunread', hsent', hstep⟩ : ∃ s' output,
        Unread readOffset (ids ++ entry.decodeIds) s' ∧
          s'.sentOffset = (said flags target mark flags' entry (ids ++ entry.decodeIds)).length ∧
          step (marking flags target mark) flags' (some s) entry = some (s', output) := by
      obtain ⟨s', _, hunread', hsent', hstep⟩ := hunread.step_marking hpaced.1 htarget
      exact ⟨s', _, hunread', hsent', hstep⟩
    have hlength : ids.length + entry.decodeIds.length = (ids ++ entry.decodeIds).length :=
      List.length_append.symm
    have hquiet' : Quiet flags readOffset (ids ++ entry.decodeIds).length pre := by
      rw [← hlength]
      cases pre with
      | nil => trivial
      | cons next rest => exact hquiet
    have hsent'' : pre = [] → s'.sentOffset = 0 := by
      intro hnil
      subst hnil
      have hnone : flags' ≠ flags ∨ entry.readable (ids ++ entry.decodeIds) ≠ target := by
        refine Or.imp_right (fun hexposed heq => ?_) hquiet
        unfold Exposed at hexposed
        have hle : (entry.readable (ids ++ entry.decodeIds)).length ≤
            (ids ++ entry.decodeIds).length - entry.taken := List.length_take_le _ _
        rw [heq] at hle
        omega
      rw [hsent', said, marked_eq_nil hnone, trimText_nil, List.length_nil]
    obtain ⟨s'', outputs, hunread'', hzero, hcount, hrest⟩ :=
      ih hunread' (hlength ▸ hpaced.2.2) hquiet' hsent''
    refine ⟨s'', output :: outputs, ?_, hzero, congrArg (· + 1) hcount, ?_⟩
    · rw [List.append_assoc] at hunread''
      exact hunread''
    · intro rest
      rw [List.cons_append, steps_cons hstep, hrest, Option.map_map]
      rfl

theorem paced_append {received : Nat} {pre rest : List (Flags × Entry)} :
    Paced readOffset received (pre ++ rest) ↔
      Paced readOffset received pre ∧ Paced readOffset (received + (decodeIds pre).length) rest := by
  induction pre generalizing received with
  | nil => simp [Paced, decodeIds]
  | cons pair pre ih =>
    unfold decodeIds at ih ⊢
    rw [List.cons_append, Paced, Paced, ih, List.flatMap_cons, List.length_append, ← Nat.add_assoc]
    simp only [and_assoc]

/-- The first message in which the settings matter and differ. -/
theorem exists_difference {received : Nat} {own own' : List (Flags × Entry)}
    (hown : own.map Prod.snd = own'.map Prod.snd)
    (h : ¬ SameFlags readOffset received own own') :
    ∃ flags pre pre' f f' entry rest rest',
      own = pre ++ (f, entry) :: rest ∧ own' = pre' ++ (f', entry) :: rest' ∧
      pre.map Prod.snd = pre'.map Prod.snd ∧
      Exposed readOffset (received + (decodeIds pre).length) entry ∧ f ≠ f' ∧
      (flags = f ∨ flags = f') ∧
      Quiet flags readOffset received pre ∧ Quiet flags readOffset received pre' := by
  induction own generalizing own' received with
  | nil => exact absurd trivial h
  | cons pair own ih =>
    cases own' with
    | nil => cases hown
    | cons pair' own' =>
      obtain ⟨f, entry⟩ := pair
      obtain ⟨f', entry'⟩ := pair'
      obtain ⟨heq, hrest⟩ := List.cons.inj hown
      dsimp only at heq
      subst heq
      by_cases hhere : Exposed readOffset received entry ∧ f ≠ f'
      · exact ⟨f, [], [], f, f', entry, own, own', rfl, rfl, rfl, hhere.1, hhere.2, .inl rfl,
          trivial, trivial⟩
      · have hagree : Exposed readOffset received entry → f = f' := by
          intro hexposed
          by_contra hne
          exact hhere ⟨hexposed, hne⟩
        have hlater : ¬ SameFlags readOffset (received + entry.decodeIds.length) own own' :=
          fun hsame => h ⟨hagree, hsame⟩
        obtain ⟨flags, pre, pre', g, g', at', rest, rest', rfl, rfl, hpre, hexposed, hne, hflags,
          hquiet, hquiet'⟩ := ih hrest hlater
        have hexposed' : Exposed readOffset
            (received + (decodeIds ((f, entry) :: pre)).length) at' := by
          unfold decodeIds at hexposed ⊢
          rw [List.flatMap_cons, List.length_append, ← Nat.add_assoc]
          exact hexposed
        have hpre' : ((f, entry) :: pre).map Prod.snd = ((f', entry) :: pre').map Prod.snd :=
          congrArg (entry :: ·) hpre
        cases pre with
        | nil =>
          have hnil : pre' = [] := by simpa using hpre.symm
          subst hnil
          obtain ⟨flags', hflags', hhead, hhead'⟩ : ∃ flags', (flags' = g ∨ flags' = g') ∧
              (f ≠ flags' ∨ ¬ Exposed readOffset received entry) ∧
              (f' ≠ flags' ∨ ¬ Exposed readOffset received entry) := by
            by_cases hhead : Exposed readOffset received entry
            · rw [← hagree hhead]
              by_cases hg : f = g
              · exact ⟨g', .inr rfl, .inl (hg ▸ hne), .inl (hg ▸ hne)⟩
              · exact ⟨g, .inl rfl, .inl hg, .inl hg⟩
            · exact ⟨g, .inl rfl, .inr hhead, .inr hhead⟩
          exact ⟨flags', _, _, g, g', at', rest, rest', rfl, rfl, hpre', hexposed', hne, hflags',
            hhead, hhead'⟩
        | cons next pre =>
          cases pre' with
          | nil => cases hpre
          | cons next' pre' =>
            exact ⟨flags, _, _, g, g', at', rest, rest', rfl, rfl, hpre', hexposed', hne, hflags,
              hquiet, hquiet'⟩

/-- The piece of a message in question, in a run up to it. -/
theorem steps_at {flags f : Flags} {mark : Char} {pre rest : List (Flags × Entry)}
    {outputs : List Output} (hpaced : Paced readOffset 0 (pre ++ (f, entry) :: rest))
    (hexposed : Exposed readOffset (decodeIds pre).length entry)
    (hquiet : Quiet flags readOffset 0 pre)
    (h : steps (marking flags (entry.readable (decodeIds pre ++ entry.decodeIds)) mark)
      (some (blank readOffset)) (pre ++ (f, entry) :: rest) = some outputs) :
    (outputs[pre.length]?).map Output.outputStr =
      some (entry.trimText (if f = flags then [mark, replacement] else [])) := by
  have htarget : readOffset < (entry.readable (decodeIds pre ++ entry.decodeIds)).length := by
    unfold Exposed at hexposed
    unfold Entry.readable
    rw [List.length_take, List.length_append]
    omega
  obtain ⟨hpre, hhere, _, _⟩ := paced_append.mp hpaced
  obtain ⟨s', before, hunread, hzero, hcount, hrest⟩ :=
    steps_marking mark (unread_blank readOffset) hpre htarget hquiet fun _ => rfl
  rw [List.nil_append] at hunread
  rw [Nat.zero_add] at hhere
  obtain ⟨s'', outputIds, _, _, hstep⟩ := hunread.step_marking hhere htarget
  rw [hrest, steps_cons hstep, Option.map_map] at h
  obtain ⟨later, _, rfl⟩ := Option.map_eq_some_iff.mp h
  rw [hzero, List.drop_zero, said, marked]
  simp only [Function.comp_apply, and_true]
  rw [← hcount, List.getElem?_append_right (le_refl _), Nat.sub_self, List.getElem?_cons_zero]
  rfl

theorem sameFlags_of_steps {own own' : List (Flags × Entry)}
    (hown : own.map Prod.snd = own'.map Prod.snd) (hpaced : Paced readOffset 0 own)
    (hpaced' : Paced readOffset 0 own')
    (hsome : ∀ tokenizer, (steps tokenizer (some (blank readOffset)) own).isSome)
    (h : ∀ tokenizer, steps tokenizer (some (blank readOffset)) own =
      steps tokenizer (some (blank readOffset)) own') :
    SameFlags readOffset 0 own own' := by
  by_contra hdiffer
  obtain ⟨flags, pre, pre', f, f', entry, rest, rest', rfl, rfl, hpre, hexposed, hne, hflags,
    hquiet, hquiet'⟩ := exists_difference hown hdiffer
  rw [Nat.zero_add] at hexposed
  have hids : decodeIds pre = decodeIds pre' := by
    unfold decodeIds
    have hmap : ∀ own : List (Flags × Entry),
        own.flatMap (fun pair => pair.2.decodeIds) = (own.map Prod.snd).flatMap Entry.decodeIds :=
      fun own => by rw [List.flatMap_map]
    rw [hmap, hmap, hpre]
  have hcount : pre.length = pre'.length := by
    rw [← List.length_map (f := Prod.snd), hpre, List.length_map]
  obtain ⟨mark, hmark⟩ := exists_mark entry
  obtain ⟨outputs, hone⟩ := Option.isSome_iff_exists.mp
    (hsome (marking flags (entry.readable (decodeIds pre ++ entry.decodeIds)) mark))
  have hpiece := steps_at hpaced hexposed hquiet hone
  rw [h, hids] at hone
  have hpiece' := steps_at hpaced' (hids ▸ hexposed) hquiet' hone
  rw [hcount, hpiece'] at hpiece
  have heq := Option.some.inj hpiece
  rcases hflags with rfl | rfl
  · rw [if_neg (Ne.symm hne), if_pos rfl, trimText_nil] at heq
    exact hmark heq.symm
  · rw [if_pos rfl, if_neg hne, trimText_nil] at heq
    exact hmark heq

/-! ### Two histories -/

/-- The entries of a request in a history. -/
def entriesOf (rid : String) (batches : List (List Entry)) : List Entry :=
  (own rid batches).map Prod.snd

/-- The messages of the two histories that have ids of the request to decode are decoded
with the same settings. -/
def SameSettings (rid : String) (batches batches' : List (List Entry)) : Prop :=
  match entriesOf rid batches with
  | [] => True
  | first :: _ => SameFlags first.readOffset 0 (own rid batches) (own rid batches')

theorem steps_eq_iff {own own' : List (Flags × Entry)}
    (hown : own.map Prod.snd = own'.map Prod.snd) (hstream : Stream (own.map Prod.snd)) :
    (∀ tokenizer, steps tokenizer none own = steps tokenizer none own') ↔
      match own.map Prod.snd with
      | [] => True
      | first :: _ => SameFlags first.readOffset 0 own own' := by
  cases own with
  | nil =>
    have hnil : own' = [] := by simpa using hown.symm
    rw [hnil]
    exact iff_of_true (fun _ => rfl) trivial
  | cons pair rest =>
    cases own' with
    | nil => cases hown
    | cons pair' rest' =>
      have hpaced := paced_of_stream hstream
      have hentry : pair.2 = pair'.2 := (List.cons.inj hown).1
      have hfirst : pair.2.decodedText = [] := hstream.1
      have hpaced' : Paced pair.2.readOffset 0 (pair' :: rest') := by
        rw [hown] at hstream
        rw [hentry]
        exact paced_of_stream hstream
      have hnone : ∀ tokenizer, steps tokenizer none (pair' :: rest') =
          steps tokenizer (some (blank pair.2.readOffset)) (pair' :: rest') := by
        intro tokenizer
        rw [steps_none (hentry ▸ hfirst), hentry]
      constructor
      · intro h
        refine sameFlags_of_steps hown hpaced hpaced' (fun tokenizer => ?_) fun tokenizer => ?_
        · rw [← steps_none hfirst]
          exact steps_isSome tokenizer hstream
        · rw [← steps_none hfirst, ← hnone, h]
      · intro h tokenizer
        rw [steps_none hfirst, hnone]
        exact steps_eq_of_sameFlags hown (unread_blank _) hpaced h

/-- A request gets the same from every tokenizer in two histories exactly when the first
requests of its messages bring the same settings. -/
theorem ownOutputs_eq_iff {capacity : Nat} {batches batches' : List (List Entry)}
    (hserved : Served (.empty capacity) batches) (hserved' : Served (.empty capacity) batches')
    (hstream : ∀ rid, Stream (entriesOf rid batches))
    (hstream' : ∀ rid, Stream (entriesOf rid batches')) (rid : String)
    (hown : entriesOf rid batches = entriesOf rid batches') :
    (∀ tokenizer outputs outputs',
      handleAll tokenizer (.empty capacity) batches = some outputs →
      handleAll tokenizer (.empty capacity) batches' = some outputs' →
      ownOutputs rid outputs = ownOutputs rid outputs') ↔ SameSettings rid batches batches' := by
  have hsteps := steps_eq_iff hown (hstream rid)
  unfold SameSettings entriesOf
  rw [← hsteps]
  constructor
  · intro h tokenizer
    obtain ⟨outputs, hrun⟩ := Option.isSome_iff_exists.mp
      (handleAll_isSome hserved fun rid => steps_isSome tokenizer (hstream rid))
    obtain ⟨outputs', hrun'⟩ := Option.isSome_iff_exists.mp
      (handleAll_isSome hserved' fun rid => steps_isSome tokenizer (hstream' rid))
    have hone : steps tokenizer none (own rid batches) = some (ownOutputs rid outputs) :=
      handleAll_some hserved hrun rid
    have hone' : steps tokenizer none (own rid batches') = some (ownOutputs rid outputs') :=
      handleAll_some hserved' hrun' rid
    rw [hone, hone', h tokenizer outputs outputs' hrun hrun']
  · intro h tokenizer outputs outputs' hrun hrun'
    have hone : steps tokenizer none (own rid batches) = some (ownOutputs rid outputs) :=
      handleAll_some hserved hrun rid
    have hone' : steps tokenizer none (own rid batches') = some (ownOutputs rid outputs') :=
      handleAll_some hserved' hrun' rid
    rw [h tokenizer, hone'] at hone
    exact (Option.some.inj hone).symm

theorem mem_flatten_of_mem_entriesOf {rid : String} {batches : List (List Entry)} {entry : Entry}
    (h : entry ∈ entriesOf rid batches) : entry ∈ batches.flatten := by
  obtain ⟨pair, hpair, rfl⟩ := List.mem_map.mp h
  obtain ⟨batch, hbatch, heq⟩ := List.mem_filterMap.mp hpair
  cases batch with
  | nil => cases heq
  | cons first rest =>
    obtain ⟨entry, hfind, rfl⟩ := Option.map_eq_some_iff.mp heq
    exact List.mem_flatten.mpr ⟨_, hbatch, List.mem_of_find?_eq_some hfind⟩

/-- Entries that could each be the first one. -/
theorem stream_of_forall {batches : List (List Entry)}
    (h : ∀ entry ∈ batches.flatten,
      entry.decodedText = [] ∧ entry.readOffset + entry.taken ≤ entry.decodeIds.length)
    (rid : String) : Stream (entriesOf rid batches) := by
  cases hentries : entriesOf rid batches with
  | nil => trivial
  | cons first rest =>
    have hmem : ∀ entry ∈ first :: rest, entry ∈ batches.flatten :=
      fun entry hin => mem_flatten_of_mem_entriesOf (hentries ▸ hin)
    have hfirst := h first (hmem first List.mem_cons_self)
    refine ⟨hfirst.1, hfirst.2, fun entry hin => ?_⟩
    have hentry := h entry (hmem entry (List.mem_cons_of_mem _ hin))
    omega

section Runs

/-- The letter with the number of the id; 2 is special. -/
def letters : Tokenizer where
  decode := fun flags ids =>
    (if flags.skipSpecialTokens then ids.filter (· ≠ 2) else ids).map fun id => Char.ofNat (96 + id)
  allSpecialIds := [2]

def entryOf (rid : String) (skipSpecialTokens : Bool) : Entry where
  rid := rid
  finishedReason := none
  decodedText := []
  decodeIds := [5, 2, 3]
  readOffset := 1
  flags := ⟨skipSpecialTokens, true⟩
  noStopTrim := false

/-- Alone, and behind a request with other settings. -/
def alone : List (List Entry) := [[entryOf "r" false]]

def behind (skipSpecialTokens : Bool) : List (List Entry) :=
  [[entryOf "s" skipSpecialTokens, entryOf "r" false]]

theorem served_alone : Served (.empty 2) alone :=
  ⟨by decide, by decide, by unfold Fits; decide⟩

theorem served_behind (skipSpecialTokens : Bool) :
    Served (.empty 2) (behind skipSpecialTokens) := by
  cases skipSpecialTokens <;> exact ⟨by decide, by decide, by unfold Fits; decide⟩

theorem stream_alone (rid : String) : Stream (entriesOf rid alone) :=
  stream_of_forall (by decide) rid

theorem stream_behind (skipSpecialTokens : Bool) (rid : String) :
    Stream (entriesOf rid (behind skipSpecialTokens)) := by
  apply stream_of_forall
  cases skipSpecialTokens <;> decide

/-- Behind a request that skips special tokens a request loses its own. -/
theorem behind_loses : ∃ outputs outputs',
    Served (.empty 2) alone ∧ Served (.empty 2) (behind true) ∧
      (∀ rid, Stream (entriesOf rid alone)) ∧ (∀ rid, Stream (entriesOf rid (behind true))) ∧
      entriesOf "r" alone = entriesOf "r" (behind true) ∧
      handleAll letters (.empty 2) alone = some outputs ∧
      handleAll letters (.empty 2) (behind true) = some outputs' ∧
      (ownOutputs "r" outputs).map Output.outputStr = ["bc".toList] ∧
      (ownOutputs "r" outputs').map Output.outputStr = ["c".toList] :=
  ⟨_, _, served_alone, served_behind true, stream_alone, stream_behind true, by decide, rfl, rfl,
    by decide, by decide⟩

theorem behind_same_settings : ∃ outputs outputs',
    handleAll letters (.empty 2) alone = some outputs ∧
      handleAll letters (.empty 2) (behind false) = some outputs' ∧
      ownOutputs "r" outputs = ownOutputs "r" outputs' :=
  ⟨_, _, rfl, rfl,
    (ownOutputs_eq_iff served_alone (served_behind false) stream_alone (stream_behind false) "r"
      (by decide)).mpr ⟨fun _ => rfl, trivial⟩ letters _ _ rfl rfl⟩

end Runs

end SglJax.Managers.Detokenizer
