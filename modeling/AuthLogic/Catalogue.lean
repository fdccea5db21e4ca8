/-! # Catalogues

Finite collections of entries, each found by its key. A catalogue lists its
entries in increasing order of their keys and holds one entry per key, so two
catalogues with the same entries are the same catalogue.
-/

namespace AuthLogic

structure Catalogue {α κ : Type} [Ord κ] (key : α → κ) where
  entries : List α
  sorted : entries.Pairwise fun a b => compare (key a) (key b) = .lt

namespace Catalogue

section Place

variable {α κ : Type} [Ord κ]

/-- Put an entry at its place in key order, instead of the entry of the same key if there is one. -/
def place (key : α → κ) (a : α) : List α → List α
  | [] => [a]
  | b :: bs =>
    match compare (key a) (key b) with
    | .lt => a :: b :: bs
    | .eq => a :: bs
    | .gt => b :: place key a bs

theorem mem_place {key : α → κ} {a c : α} {l : List α} (h : c ∈ place key a l) :
    c = a ∨ c ∈ l := by
  induction l with
  | nil => simpa [place] using h
  | cons b bs ih =>
    rw [place] at h
    split at h <;> grind

theorem pairwise_place [Std.TransOrd κ] {key : α → κ} (a : α) {l : List α}
    (h : l.Pairwise fun a b => compare (key a) (key b) = .lt) :
    (place key a l).Pairwise fun a b => compare (key a) (key b) = .lt := by
  induction l with
  | nil => simp [place]
  | cons b bs ih =>
    rw [List.pairwise_cons] at h
    rw [place]
    split
    case h_1 hab =>
      exact .cons (fun c hc => by
        rcases List.mem_cons.mp hc with rfl | hc
        · exact hab
        · exact Std.TransCmp.lt_trans hab (h.1 c hc)) (.cons h.1 h.2)
    case h_2 hab =>
      exact .cons (fun c hc => Std.TransCmp.lt_of_eq_of_lt hab (h.1 c hc)) h.2
    case h_3 hab =>
      exact .cons (fun c hc => by
        rcases mem_place hc with rfl | hc
        · exact Std.OrientedCmp.lt_of_gt hab
        · exact h.1 c hc) (ih h.2)

end Place

variable {α κ : Type} [Ord κ] {key : α → κ}

instance [DecidableEq α] : DecidableEq (Catalogue key) := fun a b =>
  match a, b with
  | ⟨l, _⟩, ⟨m, _⟩ =>
    if h : l = m then isTrue (by subst h; rfl) else isFalse fun e => h (Catalogue.mk.inj e)

theorem ext {a b : Catalogue key} (h : a.entries = b.entries) : a = b := by
  cases a; cases b; cases h; rfl

def empty : Catalogue key := ⟨[], .nil⟩

instance : Inhabited (Catalogue key) := ⟨empty⟩

def size (a : Catalogue key) : Nat :=
  a.entries.length

def find? (a : Catalogue key) (k : κ) : Option α :=
  a.entries.find? fun e => (compare (key e) k).isEq

def contains (a : Catalogue key) (k : κ) : Bool :=
  (a.find? k).isSome

variable [Std.TransOrd κ]

def insert (a : Catalogue key) (e : α) : Catalogue key :=
  ⟨place key e a.entries, pairwise_place e a.sorted⟩

/-- Like `insert`, except that an entry already there keeps its place. -/
def add (a : Catalogue key) (e : α) : Catalogue key :=
  if a.contains (key e) then a else a.insert e

/-- Of several entries with one key, the last. -/
def ofLast (l : List α) : Catalogue key :=
  l.foldl insert empty

/-- Of several entries with one key, the first. -/
def ofFirst (l : List α) : Catalogue key :=
  l.foldl add empty

theorem find?_place_self (e : α) (l : List α) :
    (place key e l).find? (fun b => (compare (key b) (key e)).isEq) = some e := by
  induction l with
  | nil => simp [place]
  | cons b bs ih =>
    rw [place]
    split
    case h_1 => simp
    case h_2 => simp
    case h_3 hab =>
      rw [List.find?_cons, Std.OrientedCmp.lt_of_gt hab]
      exact ih

theorem find?_place_of_ne {e : α} {k : κ} (h : compare (key e) k ≠ .eq) (l : List α) :
    (place key e l).find? (fun b => (compare (key b) k).isEq) =
      l.find? (fun b => (compare (key b) k).isEq) := by
  have hk : (compare (key e) k).isEq = false := by
    cases hc : compare (key e) k <;> simp_all
  induction l with
  | nil => simp [place, hk]
  | cons b bs ih =>
    rw [place]
    split
    case h_1 => simp [List.find?_cons, hk]
    case h_2 hab =>
      have : compare (key b) k = compare (key e) k :=
        (Std.TransCmp.congr_left hab).symm
      simp [hk, this]
    case h_3 => simp [List.find?_cons, ih]

@[simp] theorem find?_insert_self (a : Catalogue key) (e : α) :
    (a.insert e).find? (key e) = some e :=
  find?_place_self e a.entries

theorem find?_insert_of_ne (a : Catalogue key) {e : α} {k : κ} (h : compare (key e) k ≠ .eq) :
    (a.insert e).find? k = a.find? k :=
  find?_place_of_ne h a.entries

theorem contains_insert (a : Catalogue key) (e : α) (k : κ) :
    (a.insert e).contains k = ((compare (key e) k).isEq || a.contains k) := by
  by_cases h : compare (key e) k = .eq
  · have hk : (a.insert e).find? k = (a.insert e).find? (key e) := by
      have (b : α) : compare (key b) k = compare (key b) (key e) :=
        (Std.TransCmp.congr_right h).symm
      simp only [find?, this]
    rw [contains, hk, find?_insert_self, h]
    rfl
  · have hk : (compare (key e) k).isEq = false := by
      cases hc : compare (key e) k <;> simp_all
    rw [contains, find?_insert_of_ne a h, hk, Bool.false_or, contains]

theorem contains_add (a : Catalogue key) (e : α) (k : κ) :
    (a.add e).contains k = ((compare (key e) k).isEq || a.contains k) := by
  rw [add]
  split
  case isTrue h =>
    by_cases hk : compare (key e) k = .eq
    · have (b : α) : compare (key b) (key e) = compare (key b) k := Std.TransCmp.congr_right hk
      simp only [contains, find?, this] at h
      simp [contains, find?, h, hk]
    · cases hc : compare (key e) k <;> simp_all
  case isFalse => exact contains_insert a e k

theorem contains_foldl_add (l : List α) (a : Catalogue key) (k : κ) :
    (l.foldl add a).contains k = (a.contains k || l.any fun e => (compare (key e) k).isEq) := by
  induction l generalizing a with
  | nil => simp
  | cons e l ih =>
    rw [List.foldl_cons, ih, contains_add, List.any_cons, Bool.or_comm (compare (key e) k).isEq,
      Bool.or_assoc]

theorem contains_ofFirst (l : List α) (k : κ) :
    (ofFirst l : Catalogue key).contains k = l.any fun e => (compare (key e) k).isEq := by
  rw [ofFirst, contains_foldl_add]
  rfl

end Catalogue

end AuthLogic
