import Mathlib.Data.List.Basic
import Mathlib.Tactic.Common

/-! Radix-cache keys: the token sequence with its namespace, the page-wise
comparison of two keys, and the dictionary key a child is stored under. The
dictionary keys are Python values of several shapes, so they are modelled as
values rather than as a disjoint sum of shapes. -/
namespace SglJax.MemCache

/-- What a radix cache can raise. -/
inductive CacheError where
  | extraKeyMismatch (key0 key1 : Option String)
  | dpRankMismatch (key0 key1 : Option Nat)
  | indexError
  | keyError
  | typeError
  | valueError
  | assertionError
  | diverges
deriving DecidableEq, Repr

/-- Python values that occur in a children dictionary; a tuple is its chain of
items, so that `(a, b)` and `(a, b, c)` differ. -/
inductive PyVal where
  | int (n : Int)
  | str (s : String)
  | unit
  | pair (head tail : PyVal)
deriving DecidableEq, Repr

def PyVal.tuple : List PyVal → PyVal
  | [] => .unit
  | x :: xs => .pair x (PyVal.tuple xs)

/-- A key token: a vocabulary id, or the bigram EAGLE stores in its place. -/
inductive Token where
  | id (n : Int)
  | bigram (first second : Int)
deriving DecidableEq, Repr

def Token.isBigram : Token → Bool
  | .id _ => false
  | .bigram _ _ => true

def Token.py : Token → PyVal
  | .id n => .int n
  | .bigram first second => .tuple [.int first, .int second]

structure RadixKey where
  tokenIds : List Token
  extraKey : Option String
  dpRank : Option Nat
deriving DecidableEq, Repr

namespace RadixKey

def length (key : RadixKey) : Nat := key.tokenIds.length

/-- `key[:n]` -/
def take (key : RadixKey) (n : Nat) : RadixKey :=
  { key with tokenIds := key.tokenIds.take n }

/-- `key[n:]` -/
def drop (key : RadixKey) (n : Nat) : RadixKey :=
  { key with tokenIds := key.tokenIds.drop n }

/-- The rank whose pools hold the slots of this key. -/
def rank (key : RadixKey) : Nat := key.dpRank.getD 0

def SameNamespace (key other : RadixKey) : Prop :=
  key.extraKey = other.extraKey ∧ key.dpRank = other.dpRank

instance (key other : RadixKey) : Decidable (key.SameNamespace other) :=
  inferInstanceAs (Decidable (_ ∧ _))

@[simp] theorem length_take (key : RadixKey) (n : Nat) :
    (key.take n).length = min n key.length := by
  simp [length, take]

@[simp] theorem length_drop (key : RadixKey) (n : Nat) :
    (key.drop n).length = key.length - n := by
  simp [length, drop]

@[simp] theorem tokenIds_take (key : RadixKey) (n : Nat) :
    (key.take n).tokenIds = key.tokenIds.take n := rfl

@[simp] theorem tokenIds_drop (key : RadixKey) (n : Nat) :
    (key.drop n).tokenIds = key.tokenIds.drop n := rfl

theorem drop_drop (key : RadixKey) (m n : Nat) : (key.drop m).drop n = key.drop (m + n) := by
  simp [drop]

theorem take_take (key : RadixKey) (m n : Nat) : (key.take m).take n = key.take (min n m) := by
  simp [take, List.take_take]

@[simp] theorem rank_take (key : RadixKey) (n : Nat) : (key.take n).rank = key.rank := rfl

@[simp] theorem rank_drop (key : RadixKey) (n : Nat) : (key.drop n).rank = key.rank := rfl

theorem SameNamespace.refl (key : RadixKey) : key.SameNamespace key := ⟨rfl, rfl⟩

theorem SameNamespace.symm {key other : RadixKey} (h : key.SameNamespace other) :
    other.SameNamespace key := ⟨h.1.symm, h.2.symm⟩

theorem SameNamespace.trans {a b c : RadixKey} (hab : a.SameNamespace b)
    (hbc : b.SameNamespace c) : a.SameNamespace c :=
  ⟨hab.1.trans hbc.1, hab.2.trans hbc.2⟩

theorem SameNamespace.rank_eq {key other : RadixKey} (h : key.SameNamespace other) :
    key.rank = other.rank := by
  rw [rank, rank, h.2]

@[simp] theorem sameNamespace_take (key other : RadixKey) (n : Nat) :
    (key.take n).SameNamespace other ↔ key.SameNamespace other := Iff.rfl

@[simp] theorem sameNamespace_drop (key other : RadixKey) (n : Nat) :
    (key.drop n).SameNamespace other ↔ key.SameNamespace other := Iff.rfl

end RadixKey

/-- `_check_composite_key` -/
def checkCompositeKey (key0 key1 : RadixKey) : Except CacheError Unit :=
  if key0.extraKey ≠ key1.extraKey then
    .error (.extraKeyMismatch key0.extraKey key1.extraKey)
  else if key0.dpRank ≠ key1.dpRank then
    .error (.dpRankMismatch key0.dpRank key1.dpRank)
  else .ok ()

/-- The counting loop of `_key_match_page_size1`. -/
def matchTokens : List Token → List Token → Nat
  | k0 :: rest0, k1 :: rest1 => if k0 ≠ k1 then 0 else matchTokens rest0 rest1 + 1
  | _, _ => 0

/-- The `while i < min_len` loop of `_key_match_paged`. -/
def matchPages (pageSize minLen : Nat) (key0 key1 : List Token) : Nat → Nat → Nat
  | 0, i => i
  | fuel + 1, i =>
    if i < minLen then
      if (key0.drop i).take pageSize ≠ (key1.drop i).take pageSize then i
      else matchPages pageSize minLen key0 key1 fuel (i + pageSize)
    else i

def keyMatchPageSize1 (key0 key1 : RadixKey) : Except CacheError Nat := do
  checkCompositeKey key0 key1
  return matchTokens key0.tokenIds key1.tokenIds

def keyMatchPaged (pageSize : Nat) (key0 key1 : RadixKey) : Except CacheError Nat := do
  checkCompositeKey key0 key1
  let minLen := min key0.length key1.length
  return matchPages pageSize minLen key0.tokenIds key1.tokenIds minLen 0

/-- `key_match_fn`, chosen by the page size when the cache is built. -/
def keyMatchFn (pageSize : Nat) (key0 key1 : RadixKey) : Except CacheError Nat :=
  if pageSize = 1 then keyMatchPageSize1 key0 key1 else keyMatchPaged pageSize key0 key1

/-- The dictionary value of the key's first page, without its namespace. -/
def plainKey (pageSize : Nat) (tokens : List Token) : Except CacheError PyVal :=
  if pageSize = 1 then
    match tokens with
    | [] => .error .indexError
    | token :: _ => .ok token.py
  else .ok (.tuple ((tokens.take pageSize).map Token.py))

def wrapNamespace (extraKey : Option String) (dpRank : Option Nat) (plain : PyVal) : PyVal :=
  match extraKey, dpRank with
  | none, none => plain
  | some extra, none => .tuple [.str extra, plain]
  | none, some rank => .tuple [.int rank, plain]
  | some extra, some rank => .tuple [.tuple [.str extra, .int rank], plain]

/-- `get_child_key` -/
def getChildKey (pageSize : Nat) (key : RadixKey) : Except CacheError PyVal := do
  let plain ← plainKey pageSize key.tokenIds
  return wrapNamespace key.extraKey key.dpRank plain

/-- `_convert_to_bigram_key` -/
def convertToBigramKey : List Token → List Token
  | [] => []
  | [_] => []
  | .bigram a b :: rest => .bigram a b :: rest
  | .id a :: rest => bigrams a rest
where
  bigrams (a : Int) : List Token → List Token
    | [] => []
    | .id b :: rest => .bigram a b :: bigrams b rest
    | .bigram _ _ :: _ => []

/-- `key_convert_fn` -/
def keyConvertFn (isEagle : Bool) (tokens : List Token) : List Token :=
  if isEagle then convertToBigramKey tokens else tokens

/-! ### Page-wise comparison -/

/-- `n` tokens agree in whole pages, and the next page, if both have one,
differs. -/
structure PageMatch (pageSize : Nat) (left right : List Token) (n : Nat) : Prop where
  aligned : n % pageSize = 0
  le_left : n ≤ left.length
  le_right : n ≤ right.length
  same : left.take n = right.take n
  stops : n < left.length → n < right.length →
    (left.drop n).take pageSize ≠ (right.drop n).take pageSize

theorem matchTokens_spec (left right : List Token) :
    PageMatch 1 left right (matchTokens left right) := by
  induction left generalizing right with
  | nil => constructor <;> simp [matchTokens]
  | cons a left ih =>
    cases right with
    | nil => constructor <;> simp [matchTokens]
    | cons b right =>
      by_cases hab : a = b
      · subst hab
        have h := ih right
        simp only [matchTokens, ne_eq, not_true_eq_false, ↓reduceIte]
        refine ⟨Nat.mod_one _, ?_, ?_, ?_, ?_⟩
        · simpa using h.le_left
        · simpa using h.le_right
        · simpa using h.same
        · intro hl hr
          simpa using h.stops (by simpa using hl) (by simpa using hr)
      · simp only [matchTokens, ne_eq, hab, not_false_eq_true, ↓reduceIte]
        exact ⟨rfl, by simp, by simp, by simp, fun _ _ => by simpa using hab⟩

private theorem take_add_page (left right : List Token) (i pageSize : Nat)
    (hsame : left.take i = right.take i)
    (hpage : (left.drop i).take pageSize = (right.drop i).take pageSize) :
    left.take (i + pageSize) = right.take (i + pageSize) := by
  rw [List.take_add, List.take_add, hsame, hpage]

/-- The loop invariant: from an aligned `i` up to which both keys agree, the
loop ends at the first aligned position where they stop agreeing. -/
private theorem matchPages_spec {pageSize : Nat} (hpage : 0 < pageSize) {left right : List Token}
    (hleft : left.length % pageSize = 0) (hright : right.length % pageSize = 0)
    (fuel i : Nat) (hfuel : min left.length right.length ≤ i + fuel)
    (halign : i % pageSize = 0) (hi : i ≤ min left.length right.length)
    (hsame : left.take i = right.take i) :
    PageMatch pageSize left right
      (matchPages pageSize (min left.length right.length) left right fuel i) := by
  induction fuel generalizing i with
  | zero =>
    rw [matchPages]
    exact ⟨halign, by omega, by omega, hsame, fun _ _ => by omega⟩
  | succ fuel ih =>
    rw [matchPages]
    split
    · rename_i hlt
      split
      · rename_i hdiff
        exact ⟨halign, by omega, by omega, hsame, fun _ _ => hdiff⟩
      · rename_i hpageEq
        have hmin : (min left.length right.length) % pageSize = 0 := by
          rcases Nat.le_total left.length right.length with h | h
          · rwa [Nat.min_eq_left h]
          · rwa [Nat.min_eq_right h]
        have hnext : i + pageSize ≤ min left.length right.length := by
          have hdvd := Nat.dvd_sub (Nat.dvd_of_mod_eq_zero hmin) (Nat.dvd_of_mod_eq_zero halign)
          have := Nat.le_of_dvd (by omega) hdvd
          omega
        exact ih (i + pageSize) (by omega) (by simpa using halign) hnext
          (take_add_page left right i pageSize hsame (not_not.mp hpageEq))
    · rename_i hge
      exact ⟨halign, by omega, by omega, hsame, fun _ _ => by omega⟩

theorem keyMatchFn_spec {pageSize : Nat} (hpage : 0 < pageSize) {key0 key1 : RadixKey}
    (hns : key0.SameNamespace key1) (hleft : key0.length % pageSize = 0)
    (hright : key1.length % pageSize = 0) :
    ∃ n, keyMatchFn pageSize key0 key1 = .ok n ∧
      PageMatch pageSize key0.tokenIds key1.tokenIds n := by
  have hcheck : checkCompositeKey key0 key1 = .ok () := by
    simp [checkCompositeKey, hns.1, hns.2]
  unfold keyMatchFn keyMatchPageSize1 keyMatchPaged
  rw [hcheck]
  split
  · rename_i hone
    subst hone
    exact ⟨_, rfl, matchTokens_spec _ _⟩
  · exact ⟨_, rfl, matchPages_spec hpage hleft hright _ 0 (by simp [RadixKey.length])
      (Nat.zero_mod _) (Nat.zero_le _) rfl⟩

/-! ### Child keys separate namespaces and first pages -/

/-- All tokens of a cache are of one kind: ids, or bigrams under EAGLE. -/
def OfKind (isEagle : Bool) (tokens : List Token) : Prop :=
  ∀ token ∈ tokens, token.isBigram = isEagle

instance (isEagle : Bool) (tokens : List Token) : Decidable (OfKind isEagle tokens) :=
  inferInstanceAs (Decidable (∀ token ∈ tokens, _))

theorem OfKind.take {isEagle : Bool} {tokens : List Token} (h : OfKind isEagle tokens)
    (n : Nat) : OfKind isEagle (tokens.take n) :=
  fun token hmem => h token (List.mem_of_mem_take hmem)

theorem OfKind.drop {isEagle : Bool} {tokens : List Token} (h : OfKind isEagle tokens)
    (n : Nat) : OfKind isEagle (tokens.drop n) :=
  fun token hmem => h token (List.mem_of_mem_drop hmem)

theorem Token.py_injective : Function.Injective Token.py := by
  intro a b h
  cases a <;> cases b <;> simp_all [Token.py, PyVal.tuple]

theorem PyVal.tuple_injective : Function.Injective PyVal.tuple := by
  intro a b h
  induction a generalizing b with
  | nil => cases b <;> simp_all [PyVal.tuple]
  | cons x a ih =>
    cases b with
    | nil => simp [PyVal.tuple] at h
    | cons y b =>
      simp only [PyVal.tuple, PyVal.pair.injEq] at h
      rw [h.1, ih h.2]

theorem plainKey_ok (pageSize : Nat) {tokens : List Token} (h : tokens ≠ []) :
    ∃ plain, plainKey pageSize tokens = .ok plain := by
  unfold plainKey
  split
  · cases tokens with
    | nil => exact absurd rfl h
    | cons token rest => exact ⟨_, rfl⟩
  · exact ⟨_, rfl⟩

theorem plainKey_eq_iff {pageSize : Nat} {left right : List Token} {p q : PyVal}
    (hleft : left ≠ []) (hright : right ≠ []) (hp : plainKey pageSize left = .ok p)
    (hq : plainKey pageSize right = .ok q) :
    p = q ↔ left.take pageSize = right.take pageSize := by
  unfold plainKey at hp hq
  split at hp
  · rename_i hone
    subst hone
    obtain ⟨a, left, rfl⟩ := List.exists_cons_of_ne_nil hleft
    obtain ⟨b, right, rfl⟩ := List.exists_cons_of_ne_nil hright
    simp only [↓reduceIte, Except.ok.injEq] at hp hq
    subst hp hq
    simpa using Token.py_injective.eq_iff
  · rename_i hmany
    simp only [hmany, ↓reduceIte, Except.ok.injEq] at hp hq
    subst hp hq
    rw [PyVal.tuple_injective.eq_iff, (List.map_injective_iff.mpr Token.py_injective).eq_iff]

/-- What a first page looks like as a Python value: an int, a bigram, or a
tuple of tokens. None of them is a namespace tuple around another one. -/
private inductive PlainShape (isEagle : Bool) (pageSize : Nat) : PyVal → Prop where
  | one (token : Token) (hone : pageSize = 1) (hkind : token.isBigram = isEagle) :
      PlainShape isEagle pageSize token.py
  | many (tokens : List Token) (hmany : pageSize ≠ 1) (hkind : OfKind isEagle tokens) :
      PlainShape isEagle pageSize (.tuple (tokens.map Token.py))

private theorem plainKey_shape {isEagle : Bool} {pageSize : Nat} {tokens : List Token}
    {plain : PyVal} (hkind : OfKind isEagle tokens) (h : plainKey pageSize tokens = .ok plain) :
    PlainShape isEagle pageSize plain := by
  unfold plainKey at h
  split at h
  · rename_i hone
    cases tokens with
    | nil => simp at h
    | cons token rest =>
      cases h
      exact .one token hone (hkind token (by simp))
  · rename_i hmany
    cases h
    exact .many _ hmany (hkind.take _)

/-- A first page is never a pair whose first item is a namespace and whose
second item is again a first page of the same cache. -/
private theorem plain_ne_wrapped {isEagle : Bool} {pageSize : Nat} {outer inner : PyVal}
    (houter : PlainShape isEagle pageSize outer) (hinner : PlainShape isEagle pageSize inner)
    (space : PyVal)
    (hspace : (∃ s, space = .str s) ∨ (∃ n, space = .int n) ∨ ∃ s n, space = .tuple [.str s, .int n]) :
    outer ≠ .tuple [space, inner] := by
  intro heq
  cases houter with
  | one token hone hkind =>
    cases token with
    | id n => simp [Token.py, PyVal.tuple] at heq
    | bigram a b =>
      simp only [Token.py, PyVal.tuple, PyVal.pair.injEq, and_true] at heq
      obtain ⟨-, rfl⟩ := heq
      generalize hb : PyVal.int b = value at hinner
      cases hinner with
      | one other _ hother =>
        cases other with
        | id n => simp_all [Token.isBigram]
        | bigram c d => simp [Token.py, PyVal.tuple] at hb
      | many tokens hmany _ => exact hmany hone
  | many tokens hmany hkind =>
    cases tokens with
    | nil => simp [PyVal.tuple] at heq
    | cons first rest =>
      simp only [List.map_cons, PyVal.tuple, PyVal.pair.injEq] at heq
      obtain ⟨hfirst, hrest⟩ := heq
      cases first with
      | bigram a b =>
        rcases hspace with ⟨s, rfl⟩ | ⟨n, rfl⟩ | ⟨s, n, rfl⟩ <;>
          simp [Token.py, PyVal.tuple] at hfirst
      | id n =>
        cases rest with
        | nil => simp [PyVal.tuple] at hrest
        | cons second rest =>
          simp only [List.map_cons, PyVal.tuple, PyVal.pair.injEq] at hrest
          have hsecond : second.isBigram = (Token.id n).isBigram := by
            rw [hkind second (by simp), hkind (.id n) (by simp)]
          cases second with
          | bigram a b => simp [Token.isBigram] at hsecond
          | id m =>
            generalize hv : Token.py (.id m) = value at hrest
            obtain ⟨rfl, -⟩ := hrest
            cases hinner with
            | one other hone _ => exact hmany hone
            | many tokens _ _ =>
              cases tokens <;> simp [Token.py, PyVal.tuple] at hv

private theorem wrapNamespace_inj {isEagle : Bool} {pageSize : Nat}
    {e f : Option String} {r s : Option Nat} {p q : PyVal}
    (hp : PlainShape isEagle pageSize p) (hq : PlainShape isEagle pageSize q)
    (h : wrapNamespace e r p = wrapNamespace f s q) : e = f ∧ r = s ∧ p = q := by
  have hstr (x : String) := plain_ne_wrapped hp hq (.str x) (.inl ⟨x, rfl⟩)
  have hint (n : Int) := plain_ne_wrapped hp hq (.int n) (.inr (.inl ⟨n, rfl⟩))
  have hboth (x : String) (n : Int) := plain_ne_wrapped hp hq (.tuple [.str x, .int n])
    (.inr (.inr ⟨x, n, rfl⟩))
  have hstr' (x : String) := plain_ne_wrapped hq hp (.str x) (.inl ⟨x, rfl⟩)
  have hint' (n : Int) := plain_ne_wrapped hq hp (.int n) (.inr (.inl ⟨n, rfl⟩))
  have hboth' (x : String) (n : Int) := plain_ne_wrapped hq hp (.tuple [.str x, .int n])
    (.inr (.inr ⟨x, n, rfl⟩))
  cases e <;> cases r <;> cases f <;> cases s <;>
    simp_all [wrapNamespace, PyVal.tuple, eq_comm, Int.natCast_inj]

theorem getChildKey_ok (pageSize : Nat) {key : RadixKey} (h : key.tokenIds ≠ []) :
    ∃ slot, getChildKey pageSize key = .ok slot := by
  obtain ⟨plain, hplain⟩ := plainKey_ok pageSize h
  exact ⟨_, by rw [getChildKey, hplain]; rfl⟩

theorem getChildKey_congr {pageSize : Nat} {left right : RadixKey}
    (hns : left.SameNamespace right) (hl : left.tokenIds ≠ []) (hr : right.tokenIds ≠ [])
    (hpage : left.tokenIds.take pageSize = right.tokenIds.take pageSize) :
    getChildKey pageSize left = getChildKey pageSize right := by
  obtain ⟨p, hp⟩ := plainKey_ok pageSize hl
  obtain ⟨q, hq⟩ := plainKey_ok pageSize hr
  rw [getChildKey, getChildKey, hp, hq, (plainKey_eq_iff hl hr hp hq).mpr hpage, hns.1, hns.2]

/-- Equal child keys come from one namespace. -/
theorem getChildKey_namespace {isEagle : Bool} {pageSize : Nat} {left right : RadixKey}
    {slot : PyVal} (hlk : OfKind isEagle left.tokenIds) (hrk : OfKind isEagle right.tokenIds)
    (hleft : getChildKey pageSize left = .ok slot)
    (hright : getChildKey pageSize right = .ok slot) : left.SameNamespace right := by
  cases hp : plainKey pageSize left.tokenIds with
  | error e => simp [getChildKey, hp, bind, Except.bind] at hleft
  | ok p =>
    cases hq : plainKey pageSize right.tokenIds with
    | error e => simp [getChildKey, hq, bind, Except.bind] at hright
    | ok q =>
      simp only [getChildKey, hp, hq, bind, Except.bind, pure, Except.pure,
        Except.ok.injEq] at hleft hright
      obtain ⟨he, hd, -⟩ := wrapNamespace_inj (plainKey_shape hlk hp) (plainKey_shape hrk hq)
        (hleft.trans hright.symm)
      exact ⟨he, hd⟩

/-- Equal child keys come from one namespace and one first page. -/
theorem getChildKey_inj {isEagle : Bool} {pageSize : Nat} {left right : RadixKey} {slot : PyVal}
    (hl : left.tokenIds ≠ []) (hr : right.tokenIds ≠ [])
    (hlk : OfKind isEagle left.tokenIds) (hrk : OfKind isEagle right.tokenIds)
    (hleft : getChildKey pageSize left = .ok slot)
    (hright : getChildKey pageSize right = .ok slot) :
    left.SameNamespace right ∧
      left.tokenIds.take pageSize = right.tokenIds.take pageSize := by
  have hspace := getChildKey_namespace hlk hrk hleft hright
  obtain ⟨p, hp⟩ := plainKey_ok pageSize hl
  obtain ⟨q, hq⟩ := plainKey_ok pageSize hr
  simp only [getChildKey, hp, hq, bind, Except.bind, pure, Except.pure,
    Except.ok.injEq] at hleft hright
  obtain ⟨-, -, hpq⟩ := wrapNamespace_inj (plainKey_shape hlk hp) (plainKey_shape hrk hq)
    (hleft.trans hright.symm)
  exact ⟨hspace, (plainKey_eq_iff hl hr hp hq).mp hpq⟩

end SglJax.MemCache
