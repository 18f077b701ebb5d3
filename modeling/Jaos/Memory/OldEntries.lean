import Jaos.Memory.Paging

/-!
# Old entries of new tables

`mem_alloc_block` hands a frame out as it is, and nothing clears it when it becomes a table. What it held
are entries of the table from then on: one that is present maps a page, or leads to another table, and one
that is not keeps the bits that the assignments to its fields leave alone. `Event.Clear`: none of this is
in the way to a page.
-/

namespace Paging

/-- Recorded since the history was `log`. -/
def Since (log : List Event) (m : Machine) (e : Event) : Prop := ∃ new, m.log = new ++ log ∧ e ∈ new

/-- An old entry that a link can use, with `n` levels below it. -/
def Entry.Empty (n : Nat) (e : Entry) : Prop := e.present = false ∧ e.Goes n

/-- `mem_alloc_block` had a frame for the new table. -/
def Event.HasFrame : Event → Prop
  | .table _ frame _ => frame ≠ 0
  | _ => True

/-- **Nothing in the way to `v`**: the old entry on the way to `v`, if there is one in the new table, can be
used. At the end of the way it may be present where it is overwritten. -/
def Event.Clear (mapped : Prop) (v : Addr) : Event → Prop
  | .table entry _ old => (entry = getPml4Entry v.pml4 → (old v.pdp).Empty 2) ∧
      (entry = getPdpEntry v.pml4 v.pdp → (old v.pd).Empty 1) ∧
      (entry = getPdEntry v.pml4 v.pdp v.pd →
        (old v.pt).Goes 0 ∧ (¬ mapped → (old v.pt).present = false))
  | _ => True

end Paging
