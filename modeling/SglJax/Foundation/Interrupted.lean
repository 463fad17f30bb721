import Mathlib.Data.List.Basic
import Mathlib.Logic.Function.Basic
import Mathlib.Tactic.Common

/-! A sequence of writes to a memory that stops at the first write that fails. What was
written before stays. -/
namespace SglJax

section

variable {κ ν ε : Type} [DecidableEq κ]

/-- Write the keys in order. A value can fail to be computed, and the memory itself fails with
`fault` when a number of writes has been given and is used up. -/
def writeAll (fault : ε) (value : κ → Except ε ν) : Option Nat → List κ → (κ → ν) →
    (κ → ν) × Except ε Unit
  | _, [], memory => (memory, .ok ())
  | some 0, _ :: _, memory => (memory, .error fault)
  | fuel, key :: keys, memory =>
    match value key with
    | .error e => (memory, .error e)
    | .ok v => writeAll fault value (fuel.map Nat.pred) keys (Function.update memory key v)

variable {fault : ε} {value : κ → Except ε ν} {fuel : Option Nat} {keys : List κ}
  {memory : κ → ν}

theorem writeAll_cons_ok {key : κ} {v : ν} (hfuel : fuel ≠ some 0) (hv : value key = .ok v) :
    writeAll fault value fuel (key :: keys) memory =
      writeAll fault value (fuel.map Nat.pred) keys (Function.update memory key v) := by
  cases fuel with
  | none => simp [writeAll, hv]
  | some n =>
    cases n with
    | zero => exact absurd rfl hfuel
    | succ n => simp [writeAll, hv]

theorem writeAll_cons_error {key : κ} (h : fuel = some 0 ∨ ∃ e, value key = .error e) :
    ∃ e, writeAll fault value fuel (key :: keys) memory = (memory, .error e) := by
  by_cases hfuel : fuel = some 0
  · rw [hfuel]
    exact ⟨fault, rfl⟩
  · obtain ⟨e, he⟩ := h.resolve_left hfuel
    refine ⟨e, ?_⟩
    cases fuel with
    | none => simp [writeAll, he]
    | some n =>
      cases n with
      | zero => exact absurd rfl hfuel
      | succ n => simp [writeAll, he]

/-- The first write either succeeds or ends the sequence. -/
theorem writeAll_cons (fault : ε) (value : κ → Except ε ν) (fuel : Option Nat) (key : κ)
    (keys : List κ) (memory : κ → ν) :
    (∃ e, writeAll fault value fuel (key :: keys) memory = (memory, .error e)) ∨
      ∃ v, value key = .ok v ∧ writeAll fault value fuel (key :: keys) memory =
        writeAll fault value (fuel.map Nat.pred) keys (Function.update memory key v) := by
  by_cases hfuel : fuel = some 0
  · exact .inl (writeAll_cons_error (.inl hfuel))
  · cases hv : value key with
    | error e => exact .inl (writeAll_cons_error (.inr ⟨e, hv⟩))
    | ok v => exact .inr ⟨v, rfl, writeAll_cons_ok hfuel hv⟩

theorem writeAll_of_notMem {other : κ} (h : other ∉ keys) :
    (writeAll fault value fuel keys memory).1 other = memory other := by
  induction keys generalizing fuel memory with
  | nil => cases fuel <;> rfl
  | cons key keys ih =>
    obtain ⟨e, he⟩ | ⟨v, -, hv⟩ := writeAll_cons fault value fuel key keys memory
    · rw [he]
    · obtain ⟨hne, hrest⟩ := List.ne_and_not_mem_of_not_mem_cons h
      rw [hv, ih hrest, Function.update_of_ne hne]

/-- After a sequence that ran to its end every key holds its value. -/
theorem writeAll_ok (h : (writeAll fault value fuel keys memory).2 = .ok ()) {key : κ}
    (hkey : key ∈ keys) : value key = .ok ((writeAll fault value fuel keys memory).1 key) := by
  induction keys generalizing fuel memory with
  | nil => simp at hkey
  | cons first keys ih =>
    obtain ⟨e, he⟩ | ⟨v, hvalue, hv⟩ := writeAll_cons fault value fuel first keys memory
    · rw [he] at h
      cases h
    · rw [hv] at h ⊢
      by_cases hmem : key ∈ keys
      · exact ih h hmem
      · obtain rfl : key = first := (List.mem_cons.mp hkey).resolve_right hmem
        rw [writeAll_of_notMem hmem, Function.update_self, hvalue]

/-- The memory lasts for all of the writes. -/
def Lasts (fuel : Option Nat) (writes : Nat) : Prop := ∀ n, fuel = some n → writes ≤ n

instance (fuel : Option Nat) (writes : Nat) : Decidable (Lasts fuel writes) :=
  match fuel with
  | none => isTrue fun _ h => by cases h
  | some n => decidable_of_iff (writes ≤ n)
      ⟨fun h m hm => by cases hm; exact h, fun h => h n rfl⟩

theorem writeAll_completes (hfuel : Lasts fuel keys.length)
    (h : ∀ key ∈ keys, ∃ v, value key = .ok v) :
    (writeAll fault value fuel keys memory).2 = .ok () := by
  induction keys generalizing fuel memory with
  | nil => cases fuel <;> rfl
  | cons key keys ih =>
    obtain ⟨v, hv⟩ := h key List.mem_cons_self
    have hne : fuel ≠ some 0 := fun h0 => by simpa using hfuel 0 h0
    rw [writeAll_cons_ok hne hv]
    apply ih
    · intro n hn
      obtain ⟨m, hm, rfl⟩ := Option.map_eq_some_iff.mp hn
      have := hfuel m hm
      simp only [List.length_cons] at this
      simp only [Nat.pred_eq_sub_one]
      omega
    · intro other hother
      exact h other (List.mem_cons_of_mem key hother)

end

end SglJax
