/-!
# Tables

A finite map in the one form it has: the list of its pairs with ascending keys.
Equal maps are equal lists.
-/

namespace CausalTrace

/-- Pairs with ascending keys. -/
abbrev Table (κ α : Type) := List (κ × α)

namespace Table

variable {κ α β : Type}

def keys (t : Table κ α) : List κ := t.map (·.1)

def values (t : Table κ α) : List α := t.map (·.2)

section

variable [DecidableEq κ]

def find? (k : κ) : Table κ α → Option α
  | [] => none
  | (k', a) :: t => if k' = k then some a else find? k t

def contains (t : Table κ α) (k : κ) : Bool := (find? k t).isSome

/-- The list kept under a key; nothing is an empty list. -/
def listed (t : Table κ (List α)) (k : κ) : List α := (find? k t).getD []

def erase (k : κ) (t : Table κ α) : Table κ α := t.filter fun p => p.1 ≠ k

end

/-- Puts a value under a key, in place of what was there. -/
def insert [Ord κ] (k : κ) (a : α) : Table κ α → Table κ α
  | [] => [(k, a)]
  | (k', a') :: t =>
      match compare k k' with
      | .lt => (k, a) :: (k', a') :: t
      | .eq => (k, a) :: t
      | .gt => (k', a') :: insert k a t

def ofList [Ord κ] (ps : List (κ × α)) : Table κ α := ps.foldl (fun t p => insert p.1 p.2 t) []

/-- Appends to the list kept under a key. -/
def append [DecidableEq κ] [Ord κ] (k : κ) (as : List α) (t : Table κ (List α)) :
    Table κ (List α) :=
  insert k (listed t k ++ as) t

/-- Appends all lists of the second table to those of the first. -/
def appendAll [DecidableEq κ] [Ord κ] (t u : Table κ (List α)) : Table κ (List α) :=
  u.foldl (fun t p => append p.1 p.2 t) t

def mapValues (f : α → β) (t : Table κ α) : Table κ β := t.map fun p => (p.1, f p.2)

end Table

/-! ## Sets -/

/-- A finite set in the one form it has: its elements ascending. -/
abbrev Ascending (κ : Type) := List κ

namespace Ascending

variable {κ : Type}

def insert [Ord κ] (k : κ) : Ascending κ → Ascending κ
  | [] => [k]
  | k' :: s =>
      match compare k k' with
      | .lt => k :: k' :: s
      | .eq => k :: s
      | .gt => k' :: insert k s

/-- The set with all elements of a list added. -/
def insertAll [Ord κ] (s : Ascending κ) (ks : List κ) : Ascending κ :=
  ks.foldl (fun s k => insert k s) s

def ofList [Ord κ] (ks : List κ) : Ascending κ := insertAll [] ks

end Ascending

end CausalTrace
