import Arknet.Lib.Column

/-!
A column under a write batch. Writes are buffered, newest first, over a committed base; a read may
consult the buffer first (`get`) or go to the base directly (`base.get`). Committing replays the
buffer. `view` is the column a commit would leave: a buffered read is a read of the view
(`get_eq`), so the buffer and the batch cannot disagree.
-/

namespace Store

structure Overlay (κ ν : Type) [LinearOrder κ] where
  base : Column κ ν
  writes : List (κ × Option ν)

namespace Overlay

variable {κ ν : Type} [LinearOrder κ]

/-- No writes yet. -/
def fresh (c : Column κ ν) : Overlay κ ν := ⟨c, []⟩

/-- Buffer one write. -/
def write (o : Overlay κ ν) (k : κ) (v : Option ν) : Overlay κ ν := ⟨o.base, (k, v) :: o.writes⟩

def put (o : Overlay κ ν) (k : κ) (v : ν) : Overlay κ ν := o.write k (some v)

def delete (o : Overlay κ ν) (k : κ) : Overlay κ ν := o.write k none

/-- The newest buffered write of `k`. -/
def buffered (k : κ) : List (κ × Option ν) → Option (Option ν)
  | [] => none
  | w :: ws => if w.1 = k then some w.2 else buffered k ws

/-- Read through the buffer. -/
def get (o : Overlay κ ν) (k : κ) : Option ν :=
  match buffered k o.writes with
  | some v => v
  | none => o.base.get k

/-- The column after the buffered writes, oldest first. -/
def view (o : Overlay κ ν) : Column κ ν := o.writes.foldr (fun w c => c.write w.1 w.2) o.base

@[simp] theorem base_write (o : Overlay κ ν) (k : κ) (v : Option ν) : (o.write k v).base = o.base := rfl

@[simp] theorem base_put (o : Overlay κ ν) (k : κ) (v : ν) : (o.put k v).base = o.base := rfl

@[simp] theorem base_delete (o : Overlay κ ν) (k : κ) : (o.delete k).base = o.base := rfl

@[simp] theorem base_fresh (c : Column κ ν) : (fresh c).base = c := rfl

@[simp] theorem view_fresh (c : Column κ ν) : (fresh c).view = c := rfl

@[simp] theorem view_write (o : Overlay κ ν) (k : κ) (v : Option ν) :
    (o.write k v).view = o.view.write k v := rfl

@[simp] theorem view_put (o : Overlay κ ν) (k : κ) (v : ν) :
    (o.put k v).view = o.view.write k (some v) := rfl

@[simp] theorem view_delete (o : Overlay κ ν) (k : κ) :
    (o.delete k).view = o.view.write k none := rfl

/-- A buffered read is a read of the column a commit would leave. -/
theorem get_eq (o : Overlay κ ν) (k : κ) : o.get k = o.view.get k := by
  obtain ⟨c, ws⟩ := o
  induction ws with
  | nil => rfl
  | cons w ws ih =>
    simp only [get, view, buffered, List.foldr_cons, Column.get_write] at ih ⊢
    by_cases h : w.1 = k
    · simp [h]
    · simpa [h] using ih

end Overlay

/-- A single stored value under a write batch. -/
structure Cell (α : Type) where
  base : Option α
  pending : Option α

namespace Cell

variable {α : Type}

def fresh (a : Option α) : Cell α := ⟨a, none⟩

def set (c : Cell α) (a : α) : Cell α := ⟨c.base, some a⟩

def view (c : Cell α) : Option α := c.pending.or c.base

@[simp] theorem base_set (c : Cell α) (a : α) : (c.set a).base = c.base := rfl

@[simp] theorem view_set (c : Cell α) (a : α) : (c.set a).view = some a := rfl

@[simp] theorem base_fresh (a : Option α) : (fresh a).base = a := rfl

@[simp] theorem view_fresh (a : Option α) : (fresh a).view = a := rfl

end Cell

end Store
