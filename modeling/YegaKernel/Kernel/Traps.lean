import Mathlib.Data.BitVec
import Mathlib.Tactic

/-! # Traps

The way of a trap in kernel mode: `fill_gdt` and `trap_init` fill the descriptor tables, the
processor finds the entry of `idt.asm` through them, the entry saves the registers and calls the
handler in C, and `iret` goes back.

`gate_leads_to_entry`: which vectors have a gate, where it leads, and that a program in user mode can
call the entries of the vectors 3 to 5 only. `handler_reads_frame`: what the handler gets.
`trap_returns_iff`: the machine is as it was before the trap exactly if the processor pushes an error
code where the entry expects one. The entries of the vectors 8 and 10 to 13 do; those from 17 to 31 do
not, though 17 and 21 come with an error code. The gate of `page_fault` is commented out. -/

namespace YegaKernel.Kernel.Traps

open Function

/-! ### Descriptor tables -/

structure GdtEntry where
  limitLow : BitVec 16
  baseLow : BitVec 16
  baseMiddle : BitVec 8
  access : BitVec 8
  granularity : BitVec 8
  baseHigh : BitVec 8

def setGdtEntry (base limit : BitVec 32) (access granularity : BitVec 8) : GdtEntry where
  limitLow := (limit &&& 0xFFFF#32).setWidth 16
  baseLow := (base &&& 0xFFFF#32).setWidth 16
  baseMiddle := ((base >>> 16) &&& 0xFF#32).setWidth 8
  access := access
  granularity := ((limit >>> 16) &&& 0x0F#32).setWidth 8 ||| granularity <<< 4
  baseHigh := ((base >>> 24) &&& 0xFF#32).setWidth 8

/-- The table of `fill_gdt`; `tss` is the address and `size` the size of the task state segment. -/
def fillGdt (tss size : BitVec 32) : List GdtEntry :=
  [setGdtEntry 0 0 0 0, setGdtEntry 0 0xFFFFF 0x9A 0xC, setGdtEntry 0 0xFFFFF 0x92 0xC,
    setGdtEntry 0 0xFFFFF 0xFA 0xC, setGdtEntry 0 0xFFFFF 0xF2 0xC, setGdtEntry tss (size - 1) 0x89 0]

structure IdtEntry where
  isrLow : BitVec 16
  kernelCs : BitVec 16
  reserved : BitVec 8
  attributes : BitVec 8
  isrHigh : BitVec 16

def setGate (addr : BitVec 32) (type dpl : BitVec 8) : IdtEntry where
  isrLow := (addr &&& 0xFFFF#32).setWidth 16
  kernelCs := 0x08
  reserved := 0
  attributes := 0x80#8 ||| dpl <<< 5 ||| type
  isrHigh := ((addr >>> 16) &&& 0xFFFF#32).setWidth 16

/-- The entries of `idt.asm`. -/
inductive Entry
  | divideError | debug | nmi | int3 | overflow | bounds | invalidOp | deviceNotAvailable
  | doubleFault | coprocessorSegmentOverrun | invalidTSS | segmentNotPresent | stackSegment
  | generalProtection | coprocessorError | reserved
  deriving DecidableEq

/-- The gates of `trap_init`: vector, entry and privilege level. -/
def trapGates : List (ℕ × Entry × BitVec 8) :=
  [(0, .divideError, 0), (1, .debug, 0), (2, .nmi, 0), (3, .int3, 3), (4, .overflow, 3),
    (5, .bounds, 3), (6, .invalidOp, 0), (7, .deviceNotAvailable, 0), (8, .doubleFault, 0),
    (9, .coprocessorSegmentOverrun, 0), (10, .invalidTSS, 0), (11, .segmentNotPresent, 0),
    (12, .stackSegment, 0), (13, .generalProtection, 0), (15, .reserved, 0),
    (16, .coprocessorError, 0)] ++ (List.range' 17 15).map fun i => (i, .reserved, 0)

/-- `trap_init`, with the addresses of the entries. -/
def trapInit (label : Entry → BitVec 32) (idt : ℕ → IdtEntry) : ℕ → IdtEntry :=
  trapGates.foldl (fun idt g => update idt g.1 (setGate (label g.2.1) 0xF g.2.2)) idt

/-- The table before: it is in the zeroed part of the kernel. -/
def idtBss : ℕ → IdtEntry := fun _ => ⟨0, 0, 0, 0, 0⟩

/-! ### The processor -/

/-- The base of a segment. -/
def GdtEntry.base (d : GdtEntry) : BitVec 32 := d.baseHigh ++ d.baseMiddle ++ d.baseLow

/-- Where an interrupt of the privilege level `cpl` goes through a gate; a gate can be used by the
program if its own level allows it. -/
def target (gdt : List GdtEntry) (gate : IdtEntry) (cpl : BitVec 2) : Option (BitVec 32) :=
  if gate.attributes.getLsbD 7 ∧ cpl ≤ (gate.attributes >>> 5).setWidth 2 then
    (gdt[(gate.kernelCs >>> 3).toNat]?).map fun d => d.base + (gate.isrHigh ++ gate.isrLow)
  else none

inductive Gpr
  | eax | ebx | ecx | edx | esi | edi | ebp
  deriving DecidableEq

inductive Seg
  | ds | es | fs | gs
  deriving DecidableEq

/-- The registers and the stack: the words from `esp` up to the address `top`. -/
structure Cpu where
  gpr : Gpr → BitVec 32
  seg : Seg → BitVec 16
  eip : BitVec 32
  cs : BitVec 16
  eflags : BitVec 32
  stack : List (BitVec 32)
  top : BitVec 32

/-- The instructions of the entries; `i` counts words of the stack. -/
inductive Instr
  | push (r : Gpr)
  | pushSeg (s : Seg)
  | pushImm (v : BitVec 32)
  | pop (r : Gpr)
  | popSeg (s : Seg)
  | xchg (r : Gpr) (i : ℕ)
  | lea (r : Gpr) (i : ℕ)
  | mov (r : Gpr) (v : BitVec 32)
  | movSeg (s : Seg) (r : Gpr)
  | addEsp (i : ℕ)
  | call (r : Gpr)
  | callTo (a : BitVec 32)
  | iret

namespace Cpu

def esp (m : Cpu) : BitVec 32 := m.top - 4 * BitVec.ofNat 32 m.stack.length

def push (m : Cpu) (v : BitVec 32) : Cpu := { m with stack := v :: m.stack }

def setGpr (m : Cpu) (r : Gpr) (v : BitVec 32) : Cpu := { m with gpr := update m.gpr r v }

/-- The word of the stack at an address. -/
def word (m : Cpu) (a : BitVec 32) : Option (BitVec 32) := m.stack[(a - m.esp).toNat / 4]?

def setSeg (m : Cpu) (s : Seg) (v : BitVec 16) : Cpu := { m with seg := update m.seg s v }

def iret (m : Cpu) : Option Cpu :=
  match m.stack with
  | eip :: cs :: eflags :: stack =>
    some { m with eip := eip, cs := cs.setWidth 16, eflags := eflags, stack := stack }
  | _ => none

end Cpu

/-- One instruction; `fns` are the functions in C, by their addresses. -/
def exec (fns : BitVec 32 → Cpu → Cpu) (m : Cpu) : Instr → Option Cpu
  | .push r => some (m.push (m.gpr r))
  | .pushSeg s => some (m.push ((m.seg s).setWidth 32))
  | .pushImm v => some (m.push v)
  | .pop r => m.stack.head?.map fun w => { m.setGpr r w with stack := m.stack.tail }
  | .popSeg s => m.stack.head?.map fun w => { m.setSeg s (w.setWidth 16) with stack := m.stack.tail }
  | .xchg r i => m.stack[i]?.map fun w => { m.setGpr r w with stack := m.stack.set i (m.gpr r) }
  | .lea r i => some (m.setGpr r (m.esp + 4 * BitVec.ofNat 32 i))
  | .mov r v => some (m.setGpr r v)
  | .movSeg s r => some (m.setSeg s ((m.gpr r).setWidth 16))
  | .addEsp i => if i ≤ m.stack.length then some { m with stack := m.stack.drop i } else none
  | .call r => some (fns (m.gpr r) m)
  | .callTo a => some (fns a m)
  | .iret => m.iret

def run (fns : BitVec 32 → Cpu → Cpu) (is : List Instr) (m : Cpu) : Option Cpu :=
  is.foldlM (exec fns) m

/-- A trap in kernel mode: the processor pushes the flags, the place and, for some vectors, an error
code. -/
def enter (m : Cpu) (error : Option (BitVec 32)) : Cpu :=
  { m with stack := error.toList ++ m.eip :: m.cs.setWidth 32 :: m.eflags :: m.stack }

/-! ### The entries -/

/-- The functions in C that the entries call. -/
inductive Handler
  | doDivideError | doInt3 | doNmi | doOverflow | doBounds | doInvalidOp | doDeviceNotAvailable
  | doCoprocessorSegmentOverrun | doReserved | doCoprocessorError | doDoubleFault | doInvalidTSS
  | doSegmentNotPresent | doStackSegment | doGeneralProtection | mathStateRestore

/-- The handler whose address an entry pushes; `debug` pushes that of `do_int3`. -/
def handlerOf : Entry → Handler
  | .divideError => .doDivideError
  | .debug => .doInt3
  | .nmi => .doNmi
  | .int3 => .doInt3
  | .overflow => .doOverflow
  | .bounds => .doBounds
  | .invalidOp => .doInvalidOp
  | .deviceNotAvailable => .doDeviceNotAvailable
  | .doubleFault => .doDoubleFault
  | .coprocessorSegmentOverrun => .doCoprocessorSegmentOverrun
  | .invalidTSS => .doInvalidTSS
  | .segmentNotPresent => .doSegmentNotPresent
  | .stackSegment => .doStackSegment
  | .generalProtection => .doGeneralProtection
  | .coprocessorError => .doCoprocessorError
  | .reserved => .doReserved

/-- The entries that go to `error_code`, not to `no_error_code`. -/
def takesError (e : Entry) : Bool :=
  e ∈ [.doubleFault, .invalidTSS, .segmentNotPresent, .stackSegment, .generalProtection]

/-- The code of `no_error_code` and of `error_code` before the call. -/
def noErrorCode : List Instr :=
  [.xchg .eax 0, .push .ebx, .push .ecx, .push .edx, .push .edi, .push .esi, .push .ebp, .pushSeg .ds,
    .pushSeg .es, .pushSeg .fs, .pushImm 0, .lea .edx 11, .push .edx, .mov .edx 0x10, .movSeg .ds .edx,
    .movSeg .es .edx, .movSeg .fs .edx]

def errorCode : List Instr :=
  [.xchg .eax 1, .xchg .ebx 0, .push .ecx, .push .edx, .push .edi, .push .esi, .push .ebp,
    .pushSeg .ds, .pushSeg .es, .pushSeg .fs, .push .eax, .lea .eax 11, .push .eax, .mov .eax 0x10,
    .movSeg .ds .eax, .movSeg .es .eax, .movSeg .fs .eax]

/-- The code between the call and `iret`, the same for both. -/
def restore : List Instr :=
  [.addEsp 2, .popSeg .fs, .popSeg .es, .popSeg .ds, .pop .ebp, .pop .esi, .pop .edi, .pop .edx,
    .pop .ecx, .pop .ebx, .pop .eax]

def save (addr : Handler → BitVec 32) (e : Entry) : List Instr :=
  .pushImm (addr (handlerOf e)) :: if takesError e then errorCode else noErrorCode

def handle (addr : Handler → BitVec 32) (e : Entry) : List Instr :=
  save addr e ++ .call (if takesError e then .ebx else .eax) :: (restore ++ [.iret])

/-- The words that the entry of vector 7 reads. -/
structure Words where
  cr0 : BitVec 32
  current : BitVec 32
  lastTaskUsedMath : BitVec 32

/-- The entry of vector 7 with the jumps that it takes; `clts` is left out. -/
def deviceNotAvailable (addr : Handler → BitVec 32) (w : Words) : List Instr :=
  [.push .eax, .mov .eax w.cr0] ++
    if w.cr0.getLsbD 2 then .pop .eax :: handle addr .deviceNotAvailable
    else .mov .eax w.current :: (if w.current = w.lastTaskUsedMath then [] else
      [.push .ecx, .push .edx, .pushSeg .ds, .mov .eax 0x10, .movSeg .ds .eax,
        .callTo (addr .mathStateRestore), .popSeg .ds, .pop .edx, .pop .ecx]) ++ [.pop .eax, .iret]

def entryCode (addr : Handler → BitVec 32) (w : Words) : Entry → List Instr
  | .deviceNotAvailable => deviceNotAvailable addr w
  | e => handle addr e

/-- What a function in C with `n` words of arguments leaves alone. -/
structure Cdecl (n : ℕ) (f : Cpu → Cpu) : Prop where
  stack : ∀ m, n ≤ m.stack.length → ∃ args, args.length = n ∧ (f m).stack = args ++ m.stack.drop n
  top : ∀ m, (f m).top = m.top
  seg : ∀ m, (f m).seg = m.seg
  gpr : ∀ m r, r ≠ .eax → r ≠ .ecx → r ≠ .edx → (f m).gpr r = m.gpr r

/-! ### The way to the entry -/

theorem getLsbD_field (x : BitVec 32) (k : ℕ) {w : ℕ} (hw : w ≤ 32) (i : ℕ) :
    (((x >>> k) &&& BitVec.ofNat 32 (2 ^ w - 1)).setWidth w).getLsbD i =
      (decide (i < w) && x.getLsbD (k + i)) := by
  rw [BitVec.getLsbD_setWidth, BitVec.getLsbD_and, BitVec.getLsbD_ofNat, BitVec.getLsbD_ushiftRight,
    Nat.testBit_two_pow_sub_one]
  by_cases hi : i < w
  · simp [hi, show i < 32 by omega]
  · simp [hi]

theorem getLsbD_low (x : BitVec 32) {i : ℕ} (hi : i < 16) :
    ((x &&& 0xFFFF#32).setWidth 16).getLsbD i = x.getLsbD i := by
  have h := getLsbD_field x 0 (w := 16) (by norm_num) i
  refine h.trans ?_
  simp [hi]

theorem join_halves (x : BitVec 32) :
    ((x >>> 16 &&& 0xFFFF#32).setWidth 16 ++ (x &&& 0xFFFF#32).setWidth 16 : BitVec 32) = x := by
  refine BitVec.eq_of_getLsbD_eq fun i hi => ?_
  rw [BitVec.getLsbD_append]
  by_cases h : i < 16
  · exact (if_pos h).trans (getLsbD_low x h)
  · refine (if_neg h).trans ((getLsbD_field x 16 (by norm_num) (i - 16)).trans ?_)
    simp [show i - 16 < 16 by omega, show 16 + (i - 16) = i by omega]

theorem base_setGdtEntry (base limit : BitVec 32) (access granularity : BitVec 8) :
    (setGdtEntry base limit access granularity).base = base := by
  refine BitVec.eq_of_getLsbD_eq fun i hi => ?_
  rw [GdtEntry.base, BitVec.getLsbD_append, BitVec.getLsbD_append]
  by_cases h16 : i < 16
  · exact (if_pos h16).trans (getLsbD_low base h16)
  · rw [if_neg h16]
    by_cases h24 : i < 24
    · refine (if_pos (by omega)).trans ((getLsbD_field base 16 (w := 8) (by norm_num) _).trans ?_)
      simp [show i - 16 < 8 by omega, show 16 + (i - 16) = i by omega]
    · refine (if_neg (by omega)).trans ((getLsbD_field base 24 (w := 8) (by norm_num) _).trans ?_)
      simp [show i - 16 - 8 < 8 by omega, show 24 + (i - 16 - 8) = i by omega]

theorem foldl_update {α β : Type*} (key : α → ℕ) (val : α → β) : ∀ {l : List α} (f : ℕ → β),
    (l.map key).Nodup → ∀ v, l.foldl (fun f g => update f (key g) (val g)) f v =
      ((l.find? fun g => key g = v).map val).getD (f v)
  | [], _, _, _ => rfl
  | g :: l, f, hl, v => by
    obtain ⟨hg, hl⟩ := List.nodup_cons.mp hl
    rw [List.foldl_cons, foldl_update key val _ hl]
    by_cases hv : key g = v
    · have hnone : (l.find? fun g => key g = v) = none :=
        List.find?_eq_none.mpr fun g' hg' h =>
          hg (List.mem_map.mpr ⟨g', hg', (of_decide_eq_true h).trans hv.symm⟩)
      rw [hnone, List.find?_cons_of_pos (by simpa using hv)]
      simp [hv]
    · rw [List.find?_cons_of_neg (by simpa using hv), update_of_ne (Ne.symm hv)]

/-- The gate of a vector: the entry and the privilege level. -/
def gateOf (v : ℕ) : Option (Entry × BitVec 8) := (trapGates.find? fun g => g.1 = v).map Prod.snd

theorem trapInit_eq (label : Entry → BitVec 32) (v : ℕ) : trapInit label idtBss v =
    ((gateOf v).map fun g => setGate (label g.1) 0xF g.2).getD ⟨0, 0, 0, 0, 0⟩ := by
  have h := foldl_update Prod.fst (fun g : ℕ × Entry × BitVec 8 => setGate (label g.2.1) 0xF g.2.2)
    idtBss (show (trapGates.map Prod.fst).Nodup by decide) v
  rw [gateOf, Option.map_map]
  exact h

theorem gateOf_of_ge {v : ℕ} (hv : 32 ≤ v) : gateOf v = none := by
  have hlt : ∀ g ∈ trapGates, g.1 < 32 := by decide
  rw [gateOf, List.find?_eq_none.mpr fun g hg h => ?_]
  · rfl
  · have := hlt g hg
    have := of_decide_eq_true h
    omega

theorem gateOf_of_lt : ∀ v < 32, (gateOf v).isSome = decide (v ≠ 14) ∧ ∀ g ∈ gateOf v,
    g.2 = if v = 3 ∨ v = 4 ∨ v = 5 then 3 else 0 := by
  decide

theorem allows_iff : ∀ (user : Bool) (cpl : BitVec 2),
    let attributes := 0x80#8 ||| (if user then 3#8 else 0#8) <<< 5 ||| 0xF#8
    (attributes.getLsbD 7 ∧ cpl ≤ (attributes >>> 5).setWidth 2) ↔ user = true ∨ cpl = 0 := by
  decide

theorem target_setGate (tss size a : BitVec 32) (user : Bool) (cpl : BitVec 2) :
    target (fillGdt tss size) (setGate a 0xF (if user then 3 else 0)) cpl =
      if user = true ∨ cpl = 0 then some a else none := by
  have hcode : ∀ gate : IdtEntry, gate.kernelCs = 0x08 →
      (fillGdt tss size)[(gate.kernelCs >>> 3).toNat]? = some (setGdtEntry 0 0xFFFFF 0x9A 0xC) :=
    fun gate h => by rw [h]; rfl
  refine if_congr (allows_iff user cpl) ?_ rfl
  rw [hcode _ rfl, Option.map_some, base_setGdtEntry]
  exact congrArg some ((BitVec.zero_add _).trans (join_halves a))

theorem target_zero (gdt : List GdtEntry) (cpl : BitVec 2) : target gdt ⟨0, 0, 0, 0, 0⟩ cpl = none :=
  if_neg (by simp)

/-- **The gates lead to the entries**: the vectors below 32 but 14 have one, an exception comes to the
entry of its vector, and a program in user mode comes through the gates of 3, 4 and 5 only. -/
theorem gate_leads_to_entry (label : Entry → BitVec 32) (tss size : BitVec 32) (v : ℕ) :
    (gateOf v).isSome = decide (v < 32 ∧ v ≠ 14) ∧
      target (fillGdt tss size) (trapInit label idtBss v) 0 = (gateOf v).map (fun g => label g.1) ∧
      ((target (fillGdt tss size) (trapInit label idtBss v) 3).isSome = true ↔
        v = 3 ∨ v = 4 ∨ v = 5) := by
  rw [trapInit_eq]
  rcases hg : gateOf v with _ | ⟨e, dpl⟩
  · have hv : ¬ (v < 32 ∧ v ≠ 14) := fun ⟨hlt, hne⟩ => by
      have h := (gateOf_of_lt v hlt).1
      rw [hg, decide_eq_true hne] at h
      cases h
    rw [Option.map_none, Option.getD_none, target_zero, target_zero]
    exact ⟨by simp [hv], rfl, iff_of_false (by simp) (by omega)⟩
  · have hlt : v < 32 := Nat.not_le.mp fun hv => by simp [gateOf_of_ge hv] at hg
    obtain ⟨hsome, hlevel⟩ := gateOf_of_lt v hlt
    have hdpl : dpl = if decide (v = 3 ∨ v = 4 ∨ v = 5) then 3 else 0 := by
      simpa using hlevel (e, dpl) hg
    have hne : v ≠ 14 := by
      rw [hg] at hsome
      simpa using hsome.symm
    rw [Option.map_some, Option.getD_some, hdpl, target_setGate, target_setGate]
    refine ⟨by simp [hlt, hne], by simp, ?_⟩
    by_cases hu : v = 3 ∨ v = 4 ∨ v = 5
    · simp [hu]
    · simp [hu]

/-! ### The way back -/

theorem run_append (fns : BitVec 32 → Cpu → Cpu) (is js : List Instr) (m : Cpu) :
    run fns (is ++ js) m = (run fns is m).bind (run fns js) :=
  List.foldlM_append

theorem run_iret (fns : BitVec 32 → Cpu → Cpu) (m : Cpu) : run fns [.iret] m = m.iret := bind_pure _

section Entries
variable {fns : BitVec 32 → Cpu → Cpu} {m m' : Cpu} {g : Gpr → BitVec 32} {s : Seg → BitVec 16}
  {S : List (BitVec 32)} {a b : BitVec 32}

/-- The words that the code behind the call takes from the stack. -/
def saved (g : Gpr → BitVec 32) (s : Seg → BitVec 16) (S : List (BitVec 32)) : List (BitVec 32) :=
  (s .fs).setWidth 32 :: (s .es).setWidth 32 :: (s .ds).setWidth 32 :: g .ebp :: g .esi :: g .edi ::
    g .edx :: g .ecx :: g .ebx :: g .eax :: S

theorem setWidth_setWidth_16 (x : BitVec 16) : (x.setWidth 32).setWidth 16 = x := by
  simp

theorem iret_congr (hgpr : m.gpr = m'.gpr) (hseg : m.seg = m'.seg) (hstack : m.stack = m'.stack)
    (htop : m.top = m'.top) : m.iret = m'.iret := by
  obtain ⟨gpr, seg, eip, cs, eflags, stack, top⟩ := m
  obtain ⟨gpr', seg', eip', cs', eflags', stack', top'⟩ := m'
  obtain rfl : gpr = gpr' := hgpr
  obtain rfl : seg = seg' := hseg
  obtain rfl : stack = stack' := hstack
  obtain rfl : top = top' := htop
  rcases stack with _ | ⟨w, _ | ⟨w', _ | ⟨w'', S⟩⟩⟩ <;> rfl

theorem run_restore (hgs : m.seg .gs = s .gs) (hstack : m.stack = a :: b :: saved g s S) :
    run fns restore m = some { m with gpr := g, seg := s, stack := S } := by
  obtain ⟨gpr, seg, eip, cs, eflags, stack, top⟩ := m
  obtain rfl : stack = _ := hstack
  obtain ⟨g', s', h, hg, hs⟩ : ∃ g' s',
      run fns restore ⟨gpr, seg, eip, cs, eflags, a :: b :: saved g s S, top⟩ =
        some ⟨g', s', eip, cs, eflags, S, top⟩ ∧ (∀ r, g' r = g r) ∧ ∀ r, s' r = s r := by
    refine ⟨_, _, rfl, fun r => ?_, fun r => ?_⟩
    · cases r <;> rfl
    · cases r
      case gs => exact hgs
      all_goals exact setWidth_setWidth_16 _
  rw [h, funext hg, funext hs]

/-- The handler and the way back from it, from a stack with its arguments on top. -/
theorem run_call {r : Gpr} (hf : Cdecl 2 (fns (m.gpr r))) (hgs : m.seg .gs = s .gs)
    (hstack : m.stack = a :: b :: saved g s S) :
    run fns (.call r :: (restore ++ [.iret])) m = Cpu.iret { m with gpr := g, seg := s, stack := S } := by
  obtain ⟨args, hargs, hf'⟩ := hf.stack m (by rw [hstack]; exact Nat.le_add_left 2 _)
  obtain ⟨a', b', rfl⟩ := List.length_eq_two.mp hargs
  have hrun : run fns restore (fns (m.gpr r) m) = _ :=
    run_restore ((congrFun (hf.seg m) _).trans hgs) (hf'.trans (by rw [hstack]; rfl))
  have hcall : run fns (.call r :: (restore ++ [.iret])) m =
    run fns (restore ++ [.iret]) (fns (m.gpr r) m) := rfl
  rw [hcall, run_append, hrun]
  exact (run_iret fns _).trans (iret_congr rfl rfl rfl (hf.top m))

theorem lea_esp (top : BitVec 32) (n k : ℕ) :
    top - 4 * BitVec.ofNat 32 (n + k) + 4 * BitVec.ofNat 32 k = top - 4 * BitVec.ofNat 32 n := by
  rw [BitVec.ofNat_add]
  ring

theorem run_noErrorCode (fns : BitVec 32 → Cpu → Cpu) (h : BitVec 32) (m : Cpu) : ∃ g' s',
    run fns (.pushImm h :: noErrorCode) m = some { m with
      gpr := g', seg := s', stack := m.esp :: 0 :: saved m.gpr m.seg m.stack } ∧
    g' .eax = h ∧ s' .gs = m.seg .gs := by
  rw [Cpu.esp, ← lea_esp _ _ 11]
  exact ⟨_, _, rfl, rfl, rfl⟩

/-- A word of the stack is the error code for `error_code`, whether the processor pushed one or not. -/
theorem run_errorCode (fns : BitVec 32 → Cpu → Cpu) (h : BitVec 32) (hstack : m.stack = a :: S) :
    ∃ g' s', run fns (.pushImm h :: errorCode) m = some { m with
      gpr := g', seg := s', stack := (m.esp + 4) :: a :: saved m.gpr m.seg S } ∧
    g' .ebx = h ∧ s' .gs = m.seg .gs := by
  obtain ⟨gpr, seg, eip, cs, eflags, stack, top⟩ := m
  obtain rfl : stack = _ := hstack
  have hesp : Cpu.esp ⟨gpr, seg, eip, cs, eflags, a :: S, top⟩ + 4 =
      top - 4 * BitVec.ofNat 32 (S.length + 11) + 4 * BitVec.ofNat 32 11 :=
    (lea_esp top S.length 1).trans (lea_esp top S.length 11).symm
  rw [hesp]
  exact ⟨_, _, rfl, rfl, rfl⟩

variable {addr : Handler → BitVec 32} {e : Entry} {w : Words}

theorem run_save (fns : BitVec 32 → Cpu → Cpu) (addr : Handler → BitVec 32) (e : Entry)
    (hstack : m.stack = a :: S) : ∃ g' s', run fns (save addr e) m = some { m with
      gpr := g', seg := s',
      stack := if takesError e then (m.esp + 4) :: a :: saved m.gpr m.seg S
        else m.esp :: 0 :: saved m.gpr m.seg m.stack } ∧
    g' (if takesError e then .ebx else .eax) = addr (handlerOf e) ∧ s' .gs = m.seg .gs := by
  cases he : takesError e
  · simpa [save, he] using run_noErrorCode fns (addr (handlerOf e)) m
  · simpa [save, he] using run_errorCode fns (addr (handlerOf e)) hstack

theorem run_handle (hf : Cdecl 2 (fns (addr (handlerOf e)))) (hstack : m.stack = a :: S) :
    run fns (handle addr e) m =
      Cpu.iret { m with stack := if takesError e then m.stack.tail else m.stack } := by
  obtain ⟨g', s', h, hg, hs⟩ := run_save fns addr e hstack
  rw [handle, run_append, h]
  rw [← hg] at hf
  cases he : takesError e
  all_goals
    simp only [he, hstack] at hf ⊢
    exact (run_call hf hs rfl).trans (iret_congr rfl rfl rfl rfl)

/-- `math_emulate` undoes what the entry of vector 7 did before. -/
theorem run_push_pop (fns : BitVec 32 → Cpu → Cpu) (v : BitVec 32) (is : List Instr) (m : Cpu) :
    run fns (.push .eax :: .mov .eax v :: .pop .eax :: is) m = run fns is m := by
  have hpop : run fns (.push .eax :: .mov .eax v :: .pop .eax :: is) m =
    run fns is { m with gpr := update (update m.gpr .eax v) .eax (m.gpr .eax) } := rfl
  rw [hpop, update_idem, update_eq_self]

theorem run_mathStateRestore {f : Cpu → Cpu} (hr : Cdecl 0 f) (hgpr : ∀ r, r ≠ .eax → m.gpr r = g r)
    (hseg : ∀ r, r ≠ .ds → m.seg r = s r)
    (hstack : m.stack = (s .ds).setWidth 32 :: g .edx :: g .ecx :: g .eax :: S) :
    run fns [.popSeg .ds, .pop .edx, .pop .ecx, .pop .eax, .iret] (f m) =
      Cpu.iret { m with gpr := g, seg := s, stack := S } := by
  obtain ⟨args, hargs, hf⟩ := hr.stack m (Nat.zero_le _)
  obtain rfl := List.length_eq_zero_iff.mp hargs
  obtain hf : (f m).stack = _ := hf.trans hstack
  have hkept : ∀ r, r ≠ .eax → r ≠ .ecx → r ≠ .edx → (f m).gpr r = g r := fun r ha hc hd =>
    (hr.gpr m r ha hc hd).trans (hgpr r ha)
  have htop := hr.top m
  rw [← hr.seg m] at hseg
  generalize f m = c at hf hkept htop hseg ⊢
  obtain ⟨gpr, seg, eip, cs, eflags, stack, top⟩ := c
  obtain rfl : stack = _ := hf
  dsimp only at hkept hseg
  refine Eq.trans (b := run fns [.iret] ⟨update (update (update gpr .edx (g .edx)) .ecx (g .ecx)) .eax
    (g .eax), update seg .ds _, eip, cs, eflags, S, top⟩) rfl ?_
  refine (run_iret fns _).trans (iret_congr (funext fun r => ?_) (funext fun r => ?_) rfl htop)
  · cases r
    all_goals simp [hkept]
  · cases r
    all_goals simp [hseg]

theorem run_deviceNotAvailable (hf : Cdecl 2 (fns (addr .doDeviceNotAvailable)))
    (hr : Cdecl 0 (fns (addr .mathStateRestore))) (hstack : m.stack = a :: S) :
    run fns (deviceNotAvailable addr w) m = m.iret := by
  rw [deviceNotAvailable]
  split_ifs with hem hlast
  · exact (run_push_pop fns w.cr0 _ m).trans (run_handle hf hstack)
  · refine (run_iret fns _).trans (iret_congr (funext fun r => ?_) rfl rfl rfl)
    cases r <;> rfl
  · refine (run_mathStateRestore hr (fun r hr => ?_) (fun r hr => ?_) rfl : run fns _ (fns _
      ⟨update (update (update m.gpr .eax w.cr0) .eax w.current) .eax 0x10,
        update m.seg .ds 0x10, m.eip, m.cs, m.eflags,
        (m.seg .ds).setWidth 32 :: m.gpr .edx :: m.gpr .ecx :: m.gpr .eax :: m.stack, m.top⟩) = _)
    · cases r <;> first | rfl | exact absurd rfl hr
    · exact update_of_ne hr _ _

theorem run_entryCode (hf : Cdecl 2 (fns (addr (handlerOf e))))
    (hr : Cdecl 0 (fns (addr .mathStateRestore))) (hstack : m.stack = a :: S) :
    run fns (entryCode addr w e) m =
      Cpu.iret { m with stack := if takesError e then m.stack.tail else m.stack } := by
  cases e
  case deviceNotAvailable => exact run_deviceNotAvailable hf hr hstack
  all_goals exact run_handle hf hstack

theorem word_saved {p : BitVec 32} (hstack : m.stack = p :: b :: saved g s S)
    (hp : p = m.top - 4 * BitVec.ofNat 32 S.length) :
    m.word p = S[0]? ∧ m.word (p + 4) = S[1]? ∧ m.word (p + 8) = S[2]? := by
  have hesp : p = m.esp + 48 := by
    rw [hp, Cpu.esp, hstack]
    exact (lea_esp m.top S.length 12).symm
  have hword : ∀ v, m.word (p + v) = (p :: b :: saved g s S)[(48 + v).toNat / 4]? := fun v => by
    rw [Cpu.word, ← hstack, hesp, add_assoc, add_sub_cancel_left]
  exact ⟨(add_zero p) ▸ hword 0, hword 4, hword 8⟩

/-- **The handler sees what was interrupted**: its first argument points to the place and the flags,
where `die` reads them, and the second one is the error code. -/
theorem handler_reads_frame (fns : BitVec 32 → Cpu → Cpu) (addr : Handler → BitVec 32) (e : Entry)
    (m : Cpu) (error : Option (BitVec 32)) (herror : error.isSome = takesError e) :
    ∃ c p, run fns (save addr e) (enter m error) = some c ∧
      c.gpr (if takesError e then .ebx else .eax) = addr (handlerOf e) ∧
      c.stack.take 2 = [p, error.getD 0] ∧ c.word p = some m.eip ∧
      c.word (p + 4) = some (m.cs.setWidth 32) ∧ c.word (p + 8) = some m.eflags := by
  cases error with
  | none =>
    obtain ⟨g, s, hrun, hg, -⟩ := run_save (m := enter m none) fns addr e rfl
    rw [← herror] at hrun hg ⊢
    exact ⟨_, _, hrun, hg, rfl, word_saved rfl rfl⟩
  | some code =>
    obtain ⟨g, s, hrun, hg, -⟩ := run_save (m := enter m (some code)) fns addr e rfl
    rw [← herror] at hrun hg ⊢
    exact ⟨_, _, hrun, hg, rfl,
      word_saved (S := m.eip :: _ :: m.eflags :: m.stack) rfl (lea_esp m.top _ 1)⟩

def kernelCpu : Cpu := ⟨fun _ => 1, fun _ => 0x10, 0x100000, 8, 2, [], 0x90000⟩

theorem handler_reads_kernelCpu :
    ∃ c p, run (fun _ m => m) (save (fun _ => 5) .nmi) (enter kernelCpu none) = some c ∧
      c.gpr .eax = 5 ∧ c.stack.take 2 = [p, 0] ∧ c.word p = some 0x100000 ∧ c.word (p + 4) = some 8 ∧
      c.word (p + 8) = some 2 :=
  handler_reads_frame _ _ .nmi kernelCpu none rfl

/-- **A trap gives the machine back** exactly if there is an error code where the entry expects one,
whatever the handler does with its arguments and the other registers. -/
theorem trap_returns_iff (fns : BitVec 32 → Cpu → Cpu) (addr : Handler → BitVec 32) (w : Words)
    (e : Entry) (m : Cpu) (error : Option (BitVec 32)) (hf : Cdecl 2 (fns (addr (handlerOf e))))
    (hr : Cdecl 0 (fns (addr .mathStateRestore))) :
    run fns (entryCode addr w e) (enter m error) = some m ↔ error.isSome = takesError e := by
  obtain ⟨a, S, hstack⟩ : ∃ a S, (enter m error).stack = a :: S := by
    cases error <;> exact ⟨_, _, rfl⟩
  rw [run_entryCode hf hr hstack]
  obtain ⟨gpr, seg, eip, cs, eflags, stack, top⟩ := m
  have hback : Cpu.iret ⟨gpr, seg, eip, cs, eflags, eip :: cs.setWidth 32 :: eflags :: stack, top⟩ =
      some ⟨gpr, seg, eip, cs, eflags, stack, top⟩ :=
    congrArg (fun c => some (Cpu.mk gpr seg eip c eflags stack top)) (setWidth_setWidth_16 cs)
  -- with a word too many or too few, `iret` leaves a stack of another length
  cases error with
  | none =>
    cases he : takesError e with
    | false => exact iff_of_true hback rfl
    | true =>
      refine iff_of_false (fun h => ?_) nofun
      cases stack with
      | nil => cases h
      | cons x stack =>
        exact (List.cons_ne_self x stack (congrArg Cpu.stack (Option.some.inj h)).symm).elim
  | some code =>
    cases he : takesError e with
    | false =>
      exact iff_of_false
        (fun h => List.cons_ne_self eflags stack (congrArg Cpu.stack (Option.some.inj h))) nofun
    | true => exact iff_of_true hback rfl

theorem cdecl_setEax (n : ℕ) : Cdecl n fun m => m.setGpr .eax 0 where
  stack m hn := ⟨m.stack.take n, List.length_take_of_le hn, (List.take_append_drop n m.stack).symm⟩
  top _ := rfl
  seg _ := rfl
  gpr _ _ h _ _ := update_of_ne h _ _

/-- An error code for `general_protection`, and one for vector 17. -/
theorem trap_returns_generalProtection :
    let m := kernelCpu
    let entered e := run (fun _ m => m.setGpr .eax 0) (entryCode (fun _ => 0) ⟨0, 0, 0⟩ e)
      (enter m (some 0))
    entered .generalProtection = some m ∧ gateOf 17 = some (.reserved, 0) ∧ entered .reserved ≠ some m :=
  ⟨(trap_returns_iff _ _ _ .generalProtection _ _ (cdecl_setEax 2) (cdecl_setEax 0)).mpr rfl, rfl,
    fun h => nomatch (trap_returns_iff _ _ _ .reserved _ _ (cdecl_setEax 2) (cdecl_setEax 0)).mp h⟩

end Entries

end YegaKernel.Kernel.Traps
