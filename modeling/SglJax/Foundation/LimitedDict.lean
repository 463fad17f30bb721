import Mathlib.Data.List.Nodup
import Mathlib.Logic.Function.Basic
import Mathlib.Tactic.Common

/-! A dictionary that drops its oldest key when it is full. -/
namespace SglJax

structure LimitedDict (κ ν : Type) where
  capacity : Nat
  /-- In the order of insertion. -/
  keys : List κ
  get : κ → Option ν
  nodup : keys.Nodup
  mem_keys : ∀ key, key ∈ keys ↔ (get key).isSome

namespace LimitedDict

variable {κ ν : Type} [DecidableEq κ]

def empty (capacity : Nat) : LimitedDict κ ν where
  capacity := capacity
  keys := []
  get := fun _ => none
  nodup := .nil
  mem_keys := by simp

/-- `popitem(last=False)` -/
def popOldest (d : LimitedDict κ ν) : LimitedDict κ ν where
  capacity := d.capacity
  keys := d.keys.tail
  get := fun key => if key ∈ d.keys.tail then d.get key else none
  nodup := d.nodup.tail
  mem_keys := by
    intro key
    by_cases h : key ∈ d.keys.tail
    · simp only [h, if_true, true_iff]
      exact (d.mem_keys key).mp (List.mem_of_mem_tail h)
    · simp [h]

/-- `dict.__setitem__` -/
def put (d : LimitedDict κ ν) (key : κ) (value : ν) : LimitedDict κ ν where
  capacity := d.capacity
  keys := if key ∈ d.keys then d.keys else d.keys ++ [key]
  get := Function.update d.get key (some value)
  nodup := by
    split
    · exact d.nodup
    · rename_i h
      rw [← List.concat_eq_append]
      exact List.Nodup.concat h d.nodup
  mem_keys := by
    intro other
    by_cases h : other = key
    · rw [h, Function.update_self]
      by_cases hkey : key ∈ d.keys <;> simp [hkey]
    · rw [Function.update_of_ne h, ← d.mem_keys]
      by_cases hkey : key ∈ d.keys <;> simp [hkey, h]

def set (d : LimitedDict κ ν) (key : κ) (value : ν) : LimitedDict κ ν :=
  if d.capacity ≤ d.keys.length then d.popOldest.put key value else d.put key value

@[simp] theorem get_put_self (d : LimitedDict κ ν) (key : κ) (value : ν) :
    (d.put key value).get key = some value :=
  Function.update_self _ _ _

theorem get_put_of_ne (d : LimitedDict κ ν) {key other : κ} (value : ν) (h : other ≠ key) :
    (d.put key value).get other = d.get other :=
  Function.update_of_ne h _ _

/-- Below its capacity nothing is dropped. -/
theorem set_eq_put {d : LimitedDict κ ν} (h : d.keys.length < d.capacity) (key : κ) (value : ν) :
    d.set key value = d.put key value := by
  unfold set
  rw [if_neg (by omega)]

@[simp] theorem capacity_put (d : LimitedDict κ ν) (key : κ) (value : ν) :
    (d.put key value).capacity = d.capacity := rfl

theorem mem_keys_put {d : LimitedDict κ ν} {key other : κ} {value : ν} :
    other ∈ (d.put key value).keys ↔ other = key ∨ other ∈ d.keys := by
  unfold put
  dsimp only
  split
  · rename_i h
    constructor
    · exact .inr
    · rintro (rfl | hmem)
      · exact h
      · exact hmem
  · rw [List.mem_append, List.mem_singleton, or_comm]

end LimitedDict

end SglJax
