import Mathlib.Logic.Function.Basic
import MachineEmulator.Cxx

namespace i_state_access

open cartesi (CInt)

/-- The `uint64_t` components of `machine_state` that the interface reads and writes by
    name, in the order of its methods. -/
inductive csr
  | pc | minstret | mcycle | mstatus | mtvec | mscratch | mepc | mcause | mtval | misa | mie
  | mip | medeleg | mideleg | mcounteren | stvec | sscratch | sepc | scause | stval | satp
  | scounteren | ilrsc | mtimecmp | fromhost | tohost
  deriving DecidableEq, Repr

/-- The `do_` methods of a derived class of `i_state_access<DERIVED>`, to which each
    public method of the interface forwards. The state that `machine_state *s`
    designates is passed and returned explicitly: a read returns its value and the
    state it leaves, a write the state it leaves. The methods `do_read_<name>` and `do_write_<name>` of the components in `csr` take the
    name as an argument. -/
structure derived (machine_state pma_entry : Type) where
  do_read_register : machine_state → UInt32 → UInt64 × machine_state
  do_write_register : machine_state → UInt32 → UInt64 → machine_state
  do_read_csr : csr → machine_state → UInt64 × machine_state
  do_write_csr : csr → machine_state → UInt64 → machine_state
  do_set_iflags_H : machine_state → machine_state
  do_read_iflags_H : machine_state → Bool × machine_state
  do_reset_iflags_I : machine_state → machine_state
  do_read_iflags_I : machine_state → Bool × machine_state
  do_read_iflags_PRV : machine_state → UInt8 × machine_state
  do_write_iflags_PRV : machine_state → UInt8 → machine_state
  do_read_pma : machine_state → CInt → pma_entry × machine_state
  /-- Modelled from the spec: the memory read that the interface's documentation has
      `read_memory` forward to, with the parameters of `read_memory`. -/
  do_read_memory : machine_state → pma_entry → UInt64 → UInt64 → CInt → machine_state
  do_write_memory : machine_state → pma_entry → UInt64 → UInt64 → CInt → machine_state

variable {machine_state pma_entry : Type} (D : derived machine_state pma_entry)

def read_register (s : machine_state) (reg : UInt32) : UInt64 × machine_state :=
  D.do_read_register s reg

def write_register (s : machine_state) (reg : UInt32) (val : UInt64) : machine_state :=
  D.do_write_register s reg val

/-- `read_<name>(s)` of a component in `csr` returns `derived().do_read_<name>(s)`. -/
def read_csr (c : csr) (s : machine_state) : UInt64 × machine_state := D.do_read_csr c s

/-- `write_<name>(s, val)` of a component in `csr` returns `derived().do_write_<name>(s, val)`. -/
def write_csr (c : csr) (s : machine_state) (val : UInt64) : machine_state :=
  D.do_write_csr c s val

def read_pc : machine_state → UInt64 × machine_state := read_csr D .pc
def write_pc : machine_state → UInt64 → machine_state := write_csr D .pc
def read_minstret : machine_state → UInt64 × machine_state := read_csr D .minstret
def write_minstret : machine_state → UInt64 → machine_state := write_csr D .minstret
def read_mcycle : machine_state → UInt64 × machine_state := read_csr D .mcycle
def write_mcycle : machine_state → UInt64 → machine_state := write_csr D .mcycle
def read_mstatus : machine_state → UInt64 × machine_state := read_csr D .mstatus
def write_mstatus : machine_state → UInt64 → machine_state := write_csr D .mstatus
def read_mtvec : machine_state → UInt64 × machine_state := read_csr D .mtvec
def write_mtvec : machine_state → UInt64 → machine_state := write_csr D .mtvec
def read_mscratch : machine_state → UInt64 × machine_state := read_csr D .mscratch
def write_mscratch : machine_state → UInt64 → machine_state := write_csr D .mscratch
def read_mepc : machine_state → UInt64 × machine_state := read_csr D .mepc
def write_mepc : machine_state → UInt64 → machine_state := write_csr D .mepc
def read_mcause : machine_state → UInt64 × machine_state := read_csr D .mcause
def write_mcause : machine_state → UInt64 → machine_state := write_csr D .mcause
def read_mtval : machine_state → UInt64 × machine_state := read_csr D .mtval
def write_mtval : machine_state → UInt64 → machine_state := write_csr D .mtval
def read_misa : machine_state → UInt64 × machine_state := read_csr D .misa
def write_misa : machine_state → UInt64 → machine_state := write_csr D .misa
def read_mie : machine_state → UInt64 × machine_state := read_csr D .mie
def write_mie : machine_state → UInt64 → machine_state := write_csr D .mie
def read_mip : machine_state → UInt64 × machine_state := read_csr D .mip
def write_mip : machine_state → UInt64 → machine_state := write_csr D .mip
def read_medeleg : machine_state → UInt64 × machine_state := read_csr D .medeleg
def write_medeleg : machine_state → UInt64 → machine_state := write_csr D .medeleg
def read_mideleg : machine_state → UInt64 × machine_state := read_csr D .mideleg
def write_mideleg : machine_state → UInt64 → machine_state := write_csr D .mideleg
def read_mcounteren : machine_state → UInt64 × machine_state := read_csr D .mcounteren
def write_mcounteren : machine_state → UInt64 → machine_state := write_csr D .mcounteren
def read_stvec : machine_state → UInt64 × machine_state := read_csr D .stvec
def write_stvec : machine_state → UInt64 → machine_state := write_csr D .stvec
def read_sscratch : machine_state → UInt64 × machine_state := read_csr D .sscratch
def write_sscratch : machine_state → UInt64 → machine_state := write_csr D .sscratch
def read_sepc : machine_state → UInt64 × machine_state := read_csr D .sepc
def write_sepc : machine_state → UInt64 → machine_state := write_csr D .sepc
def read_scause : machine_state → UInt64 × machine_state := read_csr D .scause
def write_scause : machine_state → UInt64 → machine_state := write_csr D .scause
def read_stval : machine_state → UInt64 × machine_state := read_csr D .stval
def write_stval : machine_state → UInt64 → machine_state := write_csr D .stval
def read_satp : machine_state → UInt64 × machine_state := read_csr D .satp
def write_satp : machine_state → UInt64 → machine_state := write_csr D .satp
def read_scounteren : machine_state → UInt64 × machine_state := read_csr D .scounteren
def write_scounteren : machine_state → UInt64 → machine_state := write_csr D .scounteren
def read_ilrsc : machine_state → UInt64 × machine_state := read_csr D .ilrsc
def write_ilrsc : machine_state → UInt64 → machine_state := write_csr D .ilrsc

def set_iflags_H (s : machine_state) : machine_state := D.do_set_iflags_H s
def read_iflags_H (s : machine_state) : Bool × machine_state := D.do_read_iflags_H s
def reset_iflags_I (s : machine_state) : machine_state := D.do_reset_iflags_I s
def read_iflags_I (s : machine_state) : Bool × machine_state := D.do_read_iflags_I s
def read_iflags_PRV (s : machine_state) : UInt8 × machine_state := D.do_read_iflags_PRV s

def write_iflags_PRV (s : machine_state) (val : UInt8) : machine_state :=
  D.do_write_iflags_PRV s val

def read_mtimecmp : machine_state → UInt64 × machine_state := read_csr D .mtimecmp
def write_mtimecmp : machine_state → UInt64 → machine_state := write_csr D .mtimecmp
def read_fromhost : machine_state → UInt64 × machine_state := read_csr D .fromhost
def write_fromhost : machine_state → UInt64 → machine_state := write_csr D .fromhost
def read_tohost : machine_state → UInt64 × machine_state := read_csr D .tohost
def write_tohost : machine_state → UInt64 → machine_state := write_csr D .tohost

def read_pma (s : machine_state) (i : CInt) : pma_entry × machine_state := D.do_read_pma s i

/-- `read_memory` forwards to `do_write_memory`, as the source has it. -/
def read_memory (s : machine_state) (entry : pma_entry) (paddr val : UInt64) (size_log2 : CInt) :
    machine_state :=
  D.do_write_memory s entry paddr val size_log2

def write_memory (s : machine_state) (entry : pma_entry) (paddr val : UInt64)
    (size_log2 : CInt) : machine_state :=
  D.do_write_memory s entry paddr val size_log2

/-- What "reads do not write" asks of a derived class: each of its `do_read_` methods
    leaves the machine state as it was. -/
structure DoReadsPreserve : Prop where
  register : ∀ s reg, (D.do_read_register s reg).2 = s
  csr : ∀ c s, (D.do_read_csr c s).2 = s
  iflags_H : ∀ s, (D.do_read_iflags_H s).2 = s
  iflags_I : ∀ s, (D.do_read_iflags_I s).2 = s
  iflags_PRV : ∀ s, (D.do_read_iflags_PRV s).2 = s
  pma : ∀ s i, (D.do_read_pma s i).2 = s
  memory : ∀ s entry paddr val size_log2, D.do_read_memory s entry paddr val size_log2 = s

/-- What it promises of the interface: each of its `read_` methods leaves the machine
    state as it was. -/
structure ReadsPreserve : Prop where
  register : ∀ s reg, (read_register D s reg).2 = s
  csr : ∀ c s, (read_csr D c s).2 = s
  iflags_H : ∀ s, (read_iflags_H D s).2 = s
  iflags_I : ∀ s, (read_iflags_I D s).2 = s
  iflags_PRV : ∀ s, (read_iflags_PRV D s).2 = s
  pma : ∀ s i, (read_pma D s i).2 = s
  memory : ∀ s entry paddr val size_log2, read_memory D s entry paddr val size_log2 = s

/-- A derived class over a memory of 64-bit words addressed directly: its reads return
    zero or the word read and leave the memory alone, and `do_write_memory` stores `val`
    at `paddr`. -/
def directMemory : derived (UInt64 → UInt64) Unit where
  do_read_register m _ := (0, m)
  do_write_register m _ _ := m
  do_read_csr _ m := (0, m)
  do_write_csr _ m _ := m
  do_set_iflags_H m := m
  do_read_iflags_H m := (false, m)
  do_reset_iflags_I m := m
  do_read_iflags_I m := (false, m)
  do_read_iflags_PRV m := (0, m)
  do_write_iflags_PRV m _ := m
  do_read_pma m _ := ((), m)
  do_read_memory m _ _ _ _ := m
  do_write_memory m _ paddr val _ := Function.update m paddr val

private theorem doReadsPreserve_directMemory : DoReadsPreserve directMemory :=
  ⟨fun _ _ => rfl, fun _ _ => rfl, fun _ => rfl, fun _ => rfl, fun _ => rfl, fun _ _ => rfl,
    fun _ _ _ _ _ => rfl⟩

/-- Reads can write: the reads of `directMemory` leave the memory alone, yet
    `read_memory` on the zero memory with `paddr = 0`, `val = 1` and `size_log2 = 3`
    stores `1` at address `0`, as `read_memory` does on every derived class. -/
theorem read_memory_stores :
    DoReadsPreserve directMemory ∧ ¬ ReadsPreserve directMemory ∧
      read_memory directMemory (fun _ => 0) () 0 1 ⟨3, by decide, by decide⟩ 0 = 1 := by
  have hstore :
      read_memory directMemory (fun _ => 0) () 0 1 ⟨3, by decide, by decide⟩ 0 = 1 := by
    simp [read_memory, directMemory]
  refine ⟨doReadsPreserve_directMemory, fun h => ?_, hstore⟩
  have hzero := congrFun (h.memory (fun _ => 0) () 0 1 ⟨3, by decide, by decide⟩) 0
  rw [hstore] at hzero
  exact absurd hzero (by decide)

end i_state_access
