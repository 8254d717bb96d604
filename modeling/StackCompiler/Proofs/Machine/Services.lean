import StackCompiler.Proofs.Allocation.Holding
import StackCompiler.Proofs.Machine.Calls
import StackCompiler.Proofs.Passes.Schedule

/-!
# Services of the runtime

A `Service` is a call of a helper as an instruction asks for it: the helper, its arguments under
their names, and the values that are passed on the stack.  The code of an instruction that calls a
helper `Performs` its service: in every `Activation` of the function it brings the arguments and
the values to where the helper finds them, and when the helper returns, it restores the stack, the
registers that are needed later and the result.
-/

namespace StackCompiler

/-! ### Prepared code -/

namespace IR

open IR.Function

/-- What is true of every compiled function: its code is in order, an instruction reads an operand
once, and registers are of the pool. -/
structure Function.Prepared (g : Function) : Prop where
  wellFormed : g.WellFormed
  once : ∀ pos inst, g.fetch pos = some inst → inst.uses.Nodup
  pool : ∀ id r, g.IsValue id → (g.operand id).register = some r → r ∈ Register.pool
  value : ∀ id start, (g.operand id).liveStart = some start → g.IsValue id

/-- What is true of every compiled function is true of this one. -/
theorem prepared_of_compileIR {f : Bytecode.Function} {o : Options} {g : Function}
    (h : compileIR f o = .ok g) :
  g.Prepared
  := by
  obtain ⟨lowered, t, a, hlower, hoptimize, hallocate⟩ := exists_phases h
  obtain ⟨s, hpasses, hrest⟩ := Attempt.bind_eq_ok hoptimize
  have hs : s.Orderly := State.orderly_runPasses hlower hpasses
  obtain ⟨s', hana, hcount⟩ := Attempt.bind_eq_ok hrest
  cases hcount
  obtain ⟨hintervals, -⟩ := State.analyze_eq_ok hana
  have wf := hs.obsolete.wellFormed
  have hhints := s.func.sameHints_intervals
  rw [hintervals] at hhints
  have hplaced : s'.func.Placed g := placed_allocate hintervals hallocate
  have hsame : s.func.SameCode g := hhints.same.trans hplaced.same
  have hvalue : ∀ id, g.IsValue id ↔ s.func.IsValue id := by
    intro id
    unfold IsValue
    rw [isTemp_congr (hsame.kind_eq id), isVar_congr (hsame.kind_eq id)]
  refine ⟨(hsame.keepsOrder wf).wellFormed, fun pos inst hfetch => ?_, fun id r hid hr => ?_,
    fun id start hstart => ?_⟩
  · rw [hsame.fetch_eq] at hfetch
    exact hs.obsolete.linear.once pos inst hfetch
  · apply List.mem_of_mem_take
    apply mem_pool_of_allocate (startsRight_intervals hintervals) hallocate _ hr
    rwa [← hplaced.isTemp_eq, ← hplaced.isVar_eq]
  · obtain ⟨r, hr⟩ := hplaced.operand id
    rw [hr] at hstart
    exact (hvalue id).mpr (isTemp_or_isVar_of_liveStart wf hintervals hstart)

namespace Function.Prepared

variable {g : Function} (hg : g.Prepared)
include hg

theorem mem_pool {pos : Nat} {r : Register} (hr : r ∈ Machine.savedAcross g pos) :
  r ∈ Register.pool
  := by
  obtain ⟨id, hregister, ⟨start, -, hstart, -⟩, -⟩ := exists_of_mem_savedAcross hr
  exact hg.pool id r (hg.value id start hstart) hregister

theorem length_savedAcross (pos : Nat) :
  (Machine.savedAcross g pos).length ≤ Register.pool.length
  := ((nodup_savedAcross g pos).subperm fun _ => hg.mem_pool).length_le

end Function.Prepared

/-- There are no more temps than are counted. -/
theorem Function.WellFormed.length_le_tempCount {f : Function} (wf : f.WellFormed) {ids : List OperandId}
    (hnodup : ids.Nodup) (hids : ∀ id ∈ ids, id < f.operands.size ∧ f.isTemp id = true) :
  ids.length ≤ f.tempCount
  := by
  have hkinds : (ids.map f.kind).Nodup := by
    apply hnodup.map_on
    intro i hi j hj hkind
    obtain ⟨n, hn⟩ := isTemp_iff.mp (hids i hi).2
    exact wf.numbered.temp_inj i j n (hids i hi).1 (hids j hj).1 hn (hkind ▸ hn)
  have hsub : ids.map f.kind ⊆ (List.range f.tempCount).map .temp := by
    intro kind hkind
    obtain ⟨id, hid, rfl⟩ := List.mem_map.mp hkind
    obtain ⟨n, hn⟩ := isTemp_iff.mp (hids id hid).2
    rw [hn]
    exact List.mem_map_of_mem (List.mem_range.mpr (wf.numbered.temp_lt id n (hids id hid).1 hn))
  simpa using (hkinds.subperm hsub).length_le

end IR

namespace Machine

open IR (HelperCall Inst OperandId OperandKind)
open Register (rax rcx rsp rbp)

/-! ### Services -/

/-- A call of a helper with its arguments under their names, and values on the stack. -/
structure Service where
  helper : Helper
  arguments : List (String × Argument)
  stack : List OperandId := []
  named : arguments.map (·.1) = helper.arguments := by rfl

namespace Service

/-- Where the arguments come from. -/
abbrev sources (svc : Service) : List Argument := svc.arguments.map (·.2)

/-- There is a register for each argument of a helper. -/
theorem length_sources (svc : Service) :
  svc.sources.length ≤ Register.arguments.length
  := by
  have hhelper : ∀ helper : Helper, helper.arguments.length ≤ Register.arguments.length := by
    intro helper
    cases helper <;> decide
  have hnamed := congrArg List.length svc.named
  rw [List.length_map] at hnamed
  rw [List.length_map, hnamed]
  exact hhelper svc.helper

/-- The service by which an operand is read; none for one that takes no helper. -/
def read? : OperandKind → Option Service
  | .global n => some
    { helper := .readGlobal, arguments := [("closure", .closure), ("name", .immediate (.ofNat n))] }
  | .contents n => some { helper := .readReference, arguments := [("cell", .cell n)] }
  | .function n => some
    { helper := .readFunction, arguments := [("closure", .closure), ("index", .immediate (.ofNat n))] }
  | _ => none

/-- The service by which a value is written; none for a place that takes no helper. -/
def write? (src : OperandId) : OperandKind → Option Service
  | .global n => some
    { helper := .writeGlobal
      arguments := [("closure", .closure), ("name", .immediate (.ofNat n)), ("value", .value src)] }
  | .contents n => some { helper := .writeReference, arguments := [("cell", .cell n), ("value", .value src)] }
  | _ => none

/-- The service of a request. -/
def ofRequest : HelperCall → Service
  | .collect => { helper := .garbageCollect, arguments := [("frame", .frame)] }
  | .allocRecord => { helper := .allocRecord, arguments := [] }
  | .fieldLoad field record =>
    { helper := .fieldLoad
      arguments := [("closure", .closure), ("record", .value record), ("name", .immediate (.ofNat field))] }
  | .fieldStore field record value =>
    { helper := .fieldStore
      arguments := [("closure", .closure), ("record", .value record), ("name", .immediate (.ofNat field)),
        ("value", .value value)] }
  | .indexLoad record index =>
    { helper := .indexLoad, arguments := [("record", .value record), ("index", .value index)] }
  | .indexStore record index value =>
    { helper := .indexStore
      arguments := [("record", .value record), ("index", .value index), ("value", .value value)] }
  | .throwUninitialized name =>
    { helper := .throwUninitialized
      arguments := [("closure", .closure), ("name", .immediate (.ofNat name))] }

/-- The service of an instruction; none for one that takes no helper. -/
def ofInst? (f : IR.Function) : Inst → Option Service
  | .assign _ src => read? (f.kind src)
  | .store dest src => write? src (f.kind dest)
  | .binary .add _ lhs rhs => some
    { helper := .add, arguments := [("lhs", .value lhs), ("rhs", .value rhs)] }
  | .binary .eq _ lhs rhs => some
    { helper := .equals, arguments := [("lhs", .value lhs), ("rhs", .value rhs)] }
  | .call closure args => some
    { helper := .callFunction
      arguments := [("closure", .value closure), ("argv", .stack), ("argc", .immediate (.ofNat args.length))]
      stack := args }
  | .allocClosure function refs => some
    { helper := .allocClosure
      arguments := [("function", .value function), ("refv", .stack), ("refc", .immediate (.ofNat refs.length))]
      stack := refs }
  | .helper request => some (ofRequest request)
  | .assertion kind arg => some
    { helper := assertHelper kind, arguments := [("value", .value arg)], named := by cases kind <;> rfl }
  | _ => none

end Service

/-! ### Activations -/

variable {m : Image} {f g : IR.Function} {pos : Nat} {p q : Processor}

/-- A state in which a function runs.  Its frame is of a size that code can carry, with the saved
registers below it, and closure cells are not among a number of bytes just below the stack. -/
structure Activation (f : IR.Function) (room : Nat) (p : Processor) : Prop where
  carried : Frame.bytes f.tempCount < 2 ^ 31
  stack : p.registers rsp = p.registers rbp - .ofNat (Frame.bytes f.tempCount + Frame.savedBytes)
  cells : ∀ id n, f.kind id = .contents n → OutsideWord (p.registers rsp) room
    (p.load (p.address rbp Frame.cells) + (entryOffset n).toInt64.toUInt64)

/-- A frame has room for the parameters and the temps. -/
theorem le_bytes (temps : Nat) :
  8 * (3 + temps) ≤ Frame.bytes temps
  := by
  unfold Frame.bytes
  dsimp only
  split <;> omega

namespace Activation

variable {room : Nat} (h : Activation f room p)
include h

/-- Slots of the frame are above the stack pointer. -/
theorem outsideWord_slot (hroom : room < 2 ^ 32) {k : Nat} (hk : k ≤ Frame.bytes f.tempCount) (h8 : 8 ≤ k) :
  OutsideWord (p.registers rsp) room (p.address rbp (Int32.ofInt (-k)))
  := by
  intro i hi
  have hcarried := h.carried
  have hbase := (p.registers rbp).toNat_lt
  have hsaved : Frame.savedBytes = 40 := rfl
  unfold Outside Processor.address
  rw [h.stack]
  simp only [UInt64.toNat_add, UInt64.toNat_sub, UInt64.toNat_ofNat',
    toNat_carried (show -2 ^ 31 ≤ -(k : Int) by omega) (show -(k : Int) < 2 ^ 31 by omega)]
  omega

end Activation

/-! ### Where arguments come from -/

/-- A temp is in a register of the pool or in a slot of the frame. -/
theorem source_temp (hg : g.Prepared) {id : OperandId} (hid : id < g.operands.size ∧ g.isTemp id = true) :
  (∃ r ∈ Register.pool, source? g id = some (.register r)) ∨
    ∃ n < g.tempCount, source? g id = some (.slot (Frame.temp n))
  := by
  obtain ⟨n, hn⟩ := IR.Function.isTemp_iff.mp hid.2
  have hkind : (g.operand id).kind = .temp n := hn
  unfold source?
  dsimp only
  rw [hkind]
  cases hregister : (g.operand id).register with
  | some r => exact .inl ⟨r, hg.pool id r (.inl hid.2) hregister, rfl⟩
  | none => exact .inr ⟨n, hg.wellFormed.numbered.temp_lt id n hid.1 hn, rfl⟩

/-- What an instruction passes to a helper. -/
structure Passable (g : IR.Function) (args : List Argument) (stack : List OperandId) : Prop where
  count : args.length ≤ Register.arguments.length
  value : ∀ id, .value id ∈ args → id < g.operands.size ∧ g.isTemp id = true
  cell : ∀ n, .cell n ∈ args → ∃ id, g.kind id = .contents n
  pushed : ∀ id ∈ stack, id < g.operands.size ∧ g.isTemp id = true
  nodup : stack.Nodup

variable {helper : Helper} {args : List Argument} {stack : List OperandId}

/-- Every temp of the table can be loaded from somewhere. -/
theorem exists_source (hg : g.Prepared) {id : OperandId} (hid : id < g.operands.size ∧ g.isTemp id = true) :
  ∃ source, source? g id = some source
  := by
  rcases source_temp hg hid with ⟨r, -, hsource⟩ | ⟨n, -, hsource⟩
  · exact ⟨_, hsource⟩
  · exact ⟨_, hsource⟩

/-- The code of a call that an instruction can make prepares the call, makes it and restores what
was there. -/
theorem callHelper_of_passable (hg : g.Prepared) (hargs : Passable g args stack) :
  callHelper g pos helper args stack
    = .ok (prepareCode g pos helper args stack ++ .code (.call rax) :: restoreCode g pos stack)
  := by
  apply callHelper_eq hargs.count
  · intro arg harg
    cases arg with
    | value id => exact exists_source hg (hargs.value id harg)
    | _ => exact ⟨_, rfl⟩
  · exact fun id hid => exists_source hg (hargs.pushed id hid)

/-- The words that a call pushes are far fewer than the memory has, and those that it passes fit
the instruction that takes them off the stack again. -/
theorem callWords_lt (hg : g.Prepared) (hargs : Passable g args stack)
    (hcarried : Frame.bytes g.tempCount < 2 ^ 31) (pos : Nat) :
  8 * callWords g pos stack < 2 ^ 32 ∧ 8 * (stack.length + paddingWords g pos stack) < 2 ^ 31
  := by
  have hsaved : (savedAcross g pos).length ≤ 9 := hg.length_savedAcross pos
  have hstack := hg.wellFormed.length_le_tempCount hargs.nodup hargs.pushed
  have hbytes := le_bytes g.tempCount
  unfold callWords paddingWords
  omega

section

variable {room : Nat} (hg : g.Prepared) (ha : Activation g room p) (hroom : room < 2 ^ 32)
include hg ha hroom

/-- Temps are not among what pushing changes. -/
theorem kept_temp {id : OperandId} (hid : id < g.operands.size ∧ g.isTemp id = true) :
  ∃ source, source? g id = some source ∧ source.Kept [rcx] p room ∧
    ∀ s, source = .register s → s ∉ Register.arguments
  := by
  have hroles : ∀ s ∈ Register.pool, (s ≠ rsp ∧ s ∉ [rcx]) ∧ s ∉ Register.arguments := by decide
  rcases source_temp hg hid with ⟨r, hr, hsource⟩ | ⟨n, hn, hsource⟩
  · refine ⟨_, hsource, ⟨?_, ?_⟩, ?_⟩
    · rintro s ⟨⟩
      exact (hroles r hr).1
    · rintro _ ⟨⟩
    · rintro s ⟨⟩
      exact (hroles r hr).2
  · refine ⟨_, hsource, ⟨?_, ?_⟩, ?_⟩
    · rintro s ⟨⟩
    · intro a haddress
      have hplace : Frame.temp n = Int32.ofInt (-((8 * (4 + n) : Nat) : Int)) :=
        congrArg Int32.ofInt (show -8 * (4 + (n : Int)) = _ by omega)
      have hbytes := le_bytes g.tempCount
      rw [List.mem_singleton.mp haddress, hplace]
      exact ha.outsideWord_slot hroom (by omega) (by omega)
    · rintro s ⟨⟩

/-- Every passable argument has a source outside of the argument registers, and unless it is the
stack pointer the source is kept by the pushes. -/
theorem kept_argument (hargs : Passable g args stack) {arg : Argument} (harg : arg ∈ args) :
  ∃ source, argumentSource? g arg = some source ∧ (∀ s, source = .register s → s ∉ Register.arguments) ∧
    (arg ≠ .stack → source.Kept [rcx] p room)
  := by
  have hbytes := le_bytes g.tempCount
  have hclosure : Frame.closure = Int32.ofInt (-((8 : Nat) : Int)) := by decide
  have hcells : Frame.cells = Int32.ofInt (-((24 : Nat) : Int)) := by decide
  cases arg with
  | value id =>
    obtain ⟨source, hsource, hkept, hregister⟩ := kept_temp hg ha hroom (hargs.value id harg)
    exact ⟨source, hsource, hregister, fun _ => hkept⟩
  | result | frame =>
    refine ⟨_, rfl, ?_, fun _ => ⟨?_, ?_⟩⟩
    · rintro s ⟨⟩
      decide
    · rintro s ⟨⟩
      decide
    · rintro _ ⟨⟩
  | immediate n =>
    refine ⟨_, rfl, ?_, fun _ => ⟨?_, ?_⟩⟩ <;> rintro _ ⟨⟩
  | closure =>
    refine ⟨_, rfl, ?_, fun _ => ⟨?_, ?_⟩⟩
    · rintro _ ⟨⟩
    · rintro _ ⟨⟩
    · intro a haddress
      rw [List.mem_singleton.mp haddress, hclosure]
      exact ha.outsideWord_slot hroom (by omega) (by omega)
  | cell n =>
    refine ⟨_, rfl, ?_, fun _ => ⟨?_, ?_⟩⟩
    · rintro _ ⟨⟩
    · rintro _ ⟨⟩
    · intro a haddress
      obtain ⟨id, hid⟩ := hargs.cell n harg
      rcases List.mem_cons.mp haddress with haddress | haddress
      · rw [haddress, hcells]
        exact ha.outsideWord_slot hroom (by omega) (by omega)
      · rw [List.mem_singleton.mp haddress]
        exact ha.cells id n hid
  | stack =>
    refine ⟨_, rfl, ?_, fun hne => absurd rfl hne⟩
    rintro s ⟨⟩
    decide

end

/-! ### A call -/

/-- A helper is about to be called with what arguments and operands were before the code of the
call, and with the values that were pushed for it. -/
structure Marshalled (m : Image) (f : IR.Function) (p : Processor) (helper : Helper) (args : List Argument)
    (stack : List OperandId) (q : Processor) : Prop where
  target : q.registers rax = m.helper helper
  argument : ∀ (i : Nat) arg, args[i]? = some arg → ∃ r, Register.arguments[i]? = some r ∧
    argumentWord? m f p (q.registers rsp) arg = some (q.registers r)
  stacked : ∀ (i : Nat) id, stack[i]? = some id →
    operandWord? m f p id = some (q.load (q.registers rsp + .ofNat (8 * i)))

/-- After the code of a call the stack pointer and the registers that calls leave alone or the code
saves are what they were before it, and the result is there. -/
structure Restored (f : IR.Function) (pos : Nat) (p q' r : Processor) : Prop where
  stack : r.registers rsp = p.registers rsp
  saved : ∀ s, s ∈ savedAcross f pos ∨ s.isCalleeSaved = true → r.registers s = p.registers s
  result : r.registers rax = q'.registers rax

/-- A register that a called function must keep is neither the stack pointer nor one in which
arguments or results are passed. -/
theorem ne_rsp_of_isCalleeSaved {s : Register} (h : s.isCalleeSaved = true) :
  s ≠ rsp ∧ s ∉ rax :: Register.arguments
  := by
  revert h
  cases s <;> decide

/-- The code before a call marshals what is passed, and the code after it restores the rest. -/
theorem run_call (m : Image) (helper : Helper) (hg : g.Prepared) (hargs : Passable g args stack)
    (ha : Activation g (8 * callWords g pos stack) p) :
  ∃ q, p.runCode m (prepareCode g pos helper args stack) = some q ∧
    Marshalled m g p helper args stack q ∧
    ∀ q', Returned q q' → ∃ r, q'.runCode m (restoreCode g pos stack) = some r ∧ Restored g pos p q' r
  := by
  obtain ⟨hroom, hcleanup⟩ := callWords_lt hg hargs ha.carried pos
  have hroles : ∀ s ∈ Register.pool, s ≠ rax ∧ s ≠ rsp ∧ s ∉ [rcx] := by decide
  have hsaved : ∀ s ∈ savedAcross g pos, s ≠ rax ∧ s ≠ rsp ∧ s ∉ [rcx] := fun s hs => hroles s (hg.mem_pool hs)
  have hstack : ∀ id ∈ stack, ∃ source, source? g id = some source ∧
      source.Kept [rcx] p (8 * callWords g pos stack) := by
    intro id hid
    obtain ⟨source, hsource, hkept, -⟩ := kept_temp hg ha hroom (hargs.pushed id hid)
    exact ⟨source, hsource, hkept⟩
  obtain ⟨q, words, hrun, hpushed, htarget, hwords⟩ :=
    run_prepareCode m helper (by omega) (fun s hs => (hsaved s hs).2) hstack
      fun arg harg => kept_argument hg ha hroom hargs harg
  have hbelow : 8 * callWords g pos stack ≤ (q.registers rbp - q.registers rsp).toNat := by
    have hcarried := ha.carried
    have hbase := (p.registers rbp).toNat_lt
    have hsavedBytes : Frame.savedBytes = 40 := rfl
    rw [hpushed.stack, hpushed.length, hpushed.registers rbp (by decide) (by decide), ha.stack]
    simp only [UInt64.toNat_sub, UInt64.toNat_ofNat']
    omega
  refine ⟨q, hrun, ⟨htarget, fun i arg hi => ?_, fun i id hi => ?_⟩, fun q' hreturned => ?_⟩
  · obtain ⟨hlt, -⟩ := List.getElem?_eq_some_iff.mp hi
    have hlt' := Nat.lt_of_lt_of_le hlt hargs.count
    refine ⟨Register.arguments[i], List.getElem?_eq_getElem hlt', ?_⟩
    apply hwords (arg, Register.arguments[i])
    apply List.mem_of_getElem? (i := i)
    rw [List.getElem?_zip_eq_some]
    exact ⟨hi, List.getElem?_eq_getElem hlt'⟩
  · obtain ⟨w, hw, hword⟩ := hpushed.operand i id hi
    rw [hword, hpushed.word i w hw]
  · obtain ⟨r, hrestore, hrsp, hpopped, hothers⟩ :=
      run_restoreCode hpushed hreturned hbelow hcleanup fun h => (hsaved _ h).2.1 rfl
    refine ⟨r, hrestore, hrsp, ?_, hothers rax (fun h => (hsaved _ h).1 rfl) (by decide)⟩
    rintro s (hs | hs)
    · exact hpopped s hs
    · obtain ⟨hne, hchanged⟩ := ne_rsp_of_isCalleeSaved hs
      have hnot : s ∉ savedAcross g pos := by
        intro hmem
        obtain ⟨-, -, -, hcaller⟩ := IR.exists_of_mem_savedAcross hmem
        unfold Register.isCallerSaved at hcaller
        rw [hs] at hcaller
        cases hcaller
      rw [hothers s hnot hne, hreturned.saved s hs, hpushed.registers s hne hchanged]

/-! ### Instructions -/

/-- Code calls a helper as a service asks, and leaves its result in `rax`. -/
def Performs (g : IR.Function) (pos : Nat) (svc : Service) (code : List Fragment) : Prop :=
  ∃ prepare restore, code = prepare ++ .code (.call rax) :: restore ∧
    ∀ (m : Image) p, Activation g (8 * callWords g pos svc.stack) p →
      ∃ q, p.runCode m prepare = some q ∧
        Marshalled m g p svc.helper svc.sources svc.stack q ∧
        ∀ q', Returned q q' → ∃ r, q'.runCode m restore = some r ∧ Restored g pos p q' r

/-- The code of a call with what an instruction can pass performs the service of the call. -/
theorem performs_callHelper (pos : Nat) (hg : g.Prepared) {svc : Service}
    (hargs : Passable g svc.sources svc.stack) :
  ∃ code, callHelper g pos svc.helper svc.sources svc.stack = .ok code ∧ Performs g pos svc code
  := ⟨_, callHelper_of_passable hg hargs, _, _, rfl, fun m _ ha => run_call m svc.helper hg hargs ha⟩

/-- Temps can be passed, and what is no operand. -/
theorem passable_of_values {svc : Service} (hstack : svc.stack = [])
    (hvalue : ∀ id, .value id ∈ svc.sources → id < g.operands.size ∧ g.isTemp id = true)
    (hcell : ∀ n, .cell n ∉ svc.sources) :
  Passable g svc.sources svc.stack
  := by
  rw [hstack]
  exact ⟨svc.length_sources, hvalue, fun n hn => absurd hn (hcell n), by simp, List.nodup_nil⟩

/-- The service by which an operand is read passes what can be passed. -/
theorem passable_read {src : OperandId} {svc : Service} (h : Service.read? (g.kind src) = some svc) :
  Passable g svc.sources svc.stack
  := by
  unfold Service.read? at h
  split at h <;> cases h
  · apply passable_of_values rfl <;> simp
  · rename_i n hkind
    refine ⟨Service.length_sources _, by simp, ?_, by simp, List.nodup_nil⟩
    intro k hk
    cases List.mem_singleton.mp hk
    exact ⟨src, hkind⟩
  · apply passable_of_values rfl <;> simp

/-- What an instruction other than a store asks for can be passed. -/
theorem passable_ofInst (hg : g.Prepared) {inst : Inst} (hfetch : g.fetch pos = some inst)
    (hstore : ∀ dest src, inst ≠ .store dest src) {svc : Service}
    (hsvc : Service.ofInst? g inst = some svc) :
  Passable g svc.sources svc.stack
  := by
  have hfits := hg.wellFormed.fits pos inst hfetch
  have honce := hg.once pos inst hfetch
  have htemp : ∀ t ∈ inst.uses, (∀ d, inst ≠ .assign d t) → t < g.operands.size ∧ g.isTemp t = true := by
    intro t ht hassign
    exact ⟨hfits.use_lt t ht, hg.wellFormed.isTemp_of_uses hfetch ht hassign⟩
  cases inst with
  | assign dest src => exact passable_read hsvc
  | store dest src => exact absurd rfl (hstore dest src)
  | binary op dest lhs rhs =>
    have huses : ∀ id ∈ [lhs, rhs], id < g.operands.size ∧ g.isTemp id = true :=
      fun id hid => htemp id hid (by rintro _ ⟨⟩)
    cases op with
    | add | eq =>
      cases hsvc
      apply passable_of_values rfl
      · intro id hid
        apply huses id
        simpa [Service.sources, -List.mem_map] using hid
      · simp
    | _ => cases hsvc
  | call callee operands | allocClosure callee operands =>
    cases hsvc
    have hcallee := htemp callee List.mem_cons_self (by rintro _ ⟨⟩)
    refine ⟨Service.length_sources _, ?_, by simp, fun id hid => ?_, (List.nodup_cons.mp honce).2⟩
    · intro id hid
      have heq : id = callee := by simpa [Service.sources, -List.mem_map] using hid
      rwa [heq]
    · exact htemp id (List.mem_cons_of_mem _ hid) (by rintro _ ⟨⟩)
  | helper request =>
    cases hsvc
    have huses : ∀ id, .value id ∈ (Service.ofRequest request).sources → id ∈ request.uses := by
      cases request <;> simp [Service.sources, Service.ofRequest, HelperCall.uses, -List.mem_map]
    apply passable_of_values
    · cases request <;> rfl
    · exact fun id hid => htemp id (huses id hid) (by rintro _ ⟨⟩)
    · cases request <;> simp [Service.ofRequest]
  | assertion kind arg =>
    cases hsvc
    have harg := htemp arg List.mem_cons_self (by rintro _ ⟨⟩)
    apply passable_of_values rfl <;> simp [harg]
  | _ => cases hsvc

/-- An operand that takes a helper is read by the call of its service. -/
theorem readOperand_of_service {src : OperandId} {svc : Service} (h : Service.read? (g.kind src) = some svc) :
  readOperand g pos src = callHelper g pos svc.helper svc.sources svc.stack
  := by
  unfold IR.Function.kind at h
  unfold readOperand
  cases hkind : (g.operand src).kind <;> rw [hkind] at h <;> cases h <;> rfl

/-! ### Stores -/

theorem Activation.set_rax {room : Nat} (h : Activation g room p) (w : Word) :
  Activation g room (p.set rax w)
  := ⟨h.carried, h.stack, h.cells⟩

/-- An argument that is not in `rax` is the same when `rax` changes. -/
theorem argumentWord_set_rax {arg : Argument} (h : argumentSource? g arg ≠ some (.register rax)) (w : Word)
    (top : UInt64) :
  argumentWord? m g (p.set rax w) top arg = argumentWord? m g p top arg
  := by
  have hkeeps : Processor.Keeps [rax] p (p.set rax w) := Processor.Keeps.set List.mem_cons_self w
  unfold argumentWord?
  split
  · rfl
  · cases hsource : argumentSource? g arg with
    | none => rfl
    | some source =>
      rw [Option.map_some, Option.map_some, Source.word_of_keeps hkeeps (by decide)]
      rintro r rfl hr
      rw [List.mem_singleton.mp hr] at hsource
      exact h hsource

/-- Loading a word into `rax` first disturbs neither the other arguments nor what is restored. -/
theorem performs_stored (hg : g.Prepared) {src : OperandId}
    (hsrc : src < g.operands.size ∧ g.isTemp src = true) {svc : Service} {rest : List Argument}
    (hsources : svc.sources = rest ++ [.value src]) (hstack : svc.stack = [])
    (hrest : ∀ arg ∈ rest, argumentSource? g arg ≠ some (.register rax))
    (hargs : Passable g (rest ++ [.result]) []) :
  ∃ loaded stored, loadOperand g rax src = .ok loaded ∧
    callHelper g pos svc.helper (rest ++ [.result]) = .ok stored ∧ Performs g pos svc (loaded ++ stored)
  := by
  obtain ⟨source, hsource⟩ := exists_source hg hsrc
  refine ⟨_, _, loadOperand_of_source hsource rax, callHelper_of_passable hg hargs, _, _,
    (List.append_assoc ..).symm, fun m p ha => ?_⟩
  rw [hstack] at ha ⊢
  obtain ⟨q, hrun, hmarshalled, hreturn⟩ := run_call m svc.helper hg hargs (ha.set_rax (source.word m p))
  refine ⟨q, ?_, ⟨hmarshalled.target, fun i arg hi => ?_, fun i id hi => ?_⟩, fun q' hreturned => ?_⟩
  · rw [Processor.runCode_append, Source.runCode_code, Option.bind_some, hrun]
  · rw [hsources] at hi
    rcases Nat.lt_or_ge i rest.length with hlt | hge
    · rw [List.getElem?_append_left hlt] at hi
      obtain ⟨r, hr, hword⟩ := hmarshalled.argument i arg (by rw [List.getElem?_append_left hlt, hi])
      rw [argumentWord_set_rax (hrest arg (List.mem_of_getElem? hi))] at hword
      exact ⟨r, hr, hword⟩
    · rw [List.getElem?_append_right hge, List.getElem?_singleton] at hi
      obtain ⟨hzero, hvalue⟩ := Option.ite_none_right_eq_some.mp hi
      cases hvalue
      obtain ⟨r, hr, hword⟩ := hmarshalled.argument i .result
        (by rw [List.getElem?_append_right hge, List.getElem?_singleton, if_pos hzero])
      refine ⟨r, hr, Eq.trans ?_ hword⟩
      change (source? g src).map _ = some ((p.set rax (source.word m p)).registers rax)
      rw [hsource]
      simp
  · cases hi
  · obtain ⟨r, hrestore, hrestored⟩ := hreturn q' hreturned
    refine ⟨r, hrestore, hrestored.stack, fun s hs => ?_, hrestored.result⟩
    have hne : s ≠ rax := by
      rintro rfl
      rcases hs with hs | hs
      · exact absurd (hg.mem_pool hs) (by decide)
      · cases hs
    rw [hrestored.saved s hs, Processor.registers_set, if_neg hne]

/-- A store passes what is in `rax` as the last argument. -/
theorem writeOperand_of_service (pos : Nat) {dest src : OperandId} {svc : Service}
    (hsvc : Service.write? src (g.kind dest) = some svc) :
  ∃ rest, svc.sources = rest ++ [.value src] ∧ svc.stack = [] ∧
    writeOperand g pos dest = callHelper g pos svc.helper (rest ++ [.result]) ∧
    (∀ arg ∈ rest, argumentSource? g arg ≠ some (.register rax)) ∧ Passable g (rest ++ [.result]) []
  := by
  unfold Service.write? at hsvc
  unfold writeOperand
  split at hsvc <;> cases hsvc
  · rename_i n hn
    have hkind : (g.operand dest).kind = .global n := hn
    refine ⟨[.closure, .immediate (.ofNat n)], rfl, rfl, ?_, ?_, ?_⟩
    · simp only [hkind]
      rfl
    · simp [argumentSource?]
    · exact ⟨by simp [Register.arguments], by simp, by simp, by simp, List.nodup_nil⟩
  · rename_i n hn
    have hkind : (g.operand dest).kind = .contents n := hn
    refine ⟨[.cell n], rfl, rfl, ?_, ?_, ?_⟩
    · simp only [hkind]
      rfl
    · simp [argumentSource?]
    · refine ⟨by simp [Register.arguments], by simp, fun k hk => ⟨dest, ?_⟩, by simp, List.nodup_nil⟩
      obtain rfl : k = n := by simpa using hk
      exact hn

/-! ### Helper calls of compiled code -/

/-- An instruction that calls a helper asks for a service. -/
theorem exists_service {inst : Inst} (hfits : inst.Fits g) (hcalls : inst.callsHelper g = true) :
  ∃ svc, Service.ofInst? g inst = some svc
  := by
  cases inst with
  | assign dest src =>
    change (g.kind src).isRemote = true at hcalls
    change ∃ svc, Service.read? (g.kind src) = some svc
    cases hkind : g.kind src <;> rw [hkind] at hcalls <;> first | exact ⟨_, rfl⟩ | cases hcalls
  | store dest src =>
    change (g.kind dest).isRemote = true at hcalls
    change ∃ svc, Service.write? src (g.kind dest) = some svc
    have hplace := (hfits.store_place dest src rfl).2
    cases hkind : g.kind dest <;> rw [hkind] at hcalls hplace <;>
      first | exact ⟨_, rfl⟩ | (cases hcalls; done) | cases hplace
  | binary op dest lhs rhs =>
    cases op <;> first | exact ⟨_, rfl⟩ | cases hcalls
  | call | allocClosure | helper | assertion => exact ⟨_, rfl⟩
  | _ => cases hcalls

/-- After the call comes the code that puts the result where the instruction defines it. -/
theorem exists_finish {inst : Inst} (hstore : ∀ dest src, inst ≠ .store dest src) {svc : Service}
    (hsvc : Service.ofInst? g inst = some svc) {code call : List Fragment}
    (hcode : instCode g pos inst = .ok code) (hne : code ≠ [])
    (hcall : callHelper g pos svc.helper svc.sources svc.stack = .ok call) :
  ∃ finish, code = call ++ finish ∧ (∀ d ∈ inst.defs, writeOperand g pos d = .ok finish) ∧
    (inst.defs = [] → finish = [])
  := by
  have hplain : instCode g pos inst = callHelper g pos svc.helper svc.sources svc.stack →
      code = call ++ [] := by
    intro hinst
    rw [hinst, hcall] at hcode
    rw [List.append_nil]
    exact (Except.ok.inj hcode).symm
  cases inst with
  | assign dest src =>
    simp only [instCode] at hcode
    split at hcode
    · exact absurd (Except.ok.inj hcode).symm hne
    · obtain ⟨x, finish, hx, hfinish, rfl⟩ := append_eq_ok hcode
      rw [readOperand_of_service hsvc, hcall] at hx
      cases hx
      exact ⟨finish, rfl, by simpa [Inst.defs] using hfinish, by simp [Inst.defs]⟩
  | binary op dest lhs rhs =>
    obtain ⟨x, finish, hx, hfinish, rfl⟩ := append_eq_ok hcode
    cases op with
    | add | eq =>
      cases hsvc
      cases hx.symm.trans hcall
      exact ⟨finish, rfl, by simpa [Inst.defs] using hfinish, by simp [Inst.defs]⟩
    | _ => cases hsvc
  | store dest src => exact absurd rfl (hstore dest src)
  | call | allocClosure | assertion =>
    cases hsvc
    exact ⟨[], hplain rfl, by rintro _ ⟨⟩, fun _ => rfl⟩
  | helper request =>
    cases hsvc
    refine ⟨[], hplain ?_, by rintro _ ⟨⟩, fun _ => rfl⟩
    cases request <;> rfl
  | _ => cases hsvc

/-- In compiled code, an instruction whose code refers to a helper has code that performs the
service of the instruction, and then puts the result where the instruction defines it. -/
theorem performs_of_helperAddress {f : Bytecode.Function} {o : Options} (hcompile : compileIR f o = .ok g)
    {inst : Inst} (hfetch : g.fetch pos = some inst) {code : List Fragment}
    (hcode : instCode g pos inst = .ok code) {dst : Register} (hmem : .helperAddress dst helper ∈ code) :
  ∃ svc call finish, Service.ofInst? g inst = some svc ∧ code = call ++ finish ∧ Performs g pos svc call ∧
    (∀ d ∈ inst.defs, writeOperand g pos d = .ok finish) ∧ (inst.defs = [] → finish = [])
  := by
  have hg := IR.prepared_of_compileIR hcompile
  have hfits := hg.wellFormed.fits pos inst hfetch
  obtain ⟨svc, hsvc⟩ := exists_service hfits (callsHelper_of_mem_instCode hfits hcode hmem)
  by_cases hstore : ∃ dest src, inst = .store dest src
  · obtain ⟨dest, src, rfl⟩ := hstore
    have hsrc : src < g.operands.size ∧ g.isTemp src = true := by
      refine ⟨hfits.use_lt src List.mem_cons_self, ?_⟩
      exact hg.wellFormed.isTemp_of_uses hfetch List.mem_cons_self (by rintro _ ⟨⟩)
    obtain ⟨rest, hsources, hstack, hwrite, hrest, hargs⟩ := writeOperand_of_service pos hsvc
    obtain ⟨loaded, stored, hloaded, hstored, hperforms⟩ := performs_stored hg hsrc hsources hstack hrest hargs
    obtain ⟨x, y, hx, hy, rfl⟩ := append_eq_ok hcode
    rw [hloaded] at hx
    rw [hwrite, hstored] at hy
    cases hx
    cases hy
    refine ⟨svc, loaded ++ stored, [], hsvc, (List.append_nil _).symm, hperforms, ?_, fun _ => rfl⟩
    rintro _ ⟨⟩
  · have hother : ∀ dest src, inst ≠ .store dest src := fun dest src h => hstore ⟨dest, src, h⟩
    obtain ⟨call, hcall, hperforms⟩ :=
      performs_callHelper pos hg (passable_ofInst hg hfetch hother hsvc)
    obtain ⟨finish, hfinish⟩ := exists_finish hother hsvc hcode (List.ne_nil_of_mem hmem) hcall
    exact ⟨svc, call, finish, hsvc, hfinish.1, hperforms, hfinish.2⟩

/-- Calls its first parameter, and its last one with what the call returns. -/
def nestedCall : Bytecode.Function where
  parameterCount := 5
  localVars := ["a", "b", "c", "d", "e"]
  instructions := [
    ⟨.loadLocal, some 1⟩, ⟨.loadLocal, some 0⟩, ⟨.call, some 1⟩, ⟨.loadLocal, some 2⟩, ⟨.loadLocal, some 3⟩,
    ⟨.loadLocal, some 4⟩, ⟨.call, some 3⟩, ⟨.ret, none⟩]

/-- The first call saves the register of the last parameter. -/
theorem performs_of_helperAddress_nestedCall :
  ∃ g svc call p, compileIR nestedCall {} = .ok g ∧ Service.ofInst? g (.call 3 [1]) = some svc ∧
    savedAcross g 7 = [.r8] ∧ Performs g 7 svc call ∧ Activation g (8 * callWords g 7 svc.stack) p
  := by
  have hcheck : (compileIR nestedCall {}).toOption.any (fun g =>
      g.fetch 7 == some (.call 3 [1]) && savedAcross g 7 == [.r8] && g.tempCount == 7 &&
      g.operands.all (fun o => o.isTemp || o.isVar || o.kind == .retval) &&
      (instCode g 7 (.call 3 [1])).toOption.any (·.contains (.helperAddress rax .callFunction))) = true := by
    simp only [compileIR, IR.Function.allocate, IR.Function.scan, IR.Function.placementOrder_eq_insertionSort]
    decide +kernel
  obtain ⟨g, hg, hcheck⟩ := (Option.any_eq_true _ _).mp hcheck
  have hcompile := eq_ok_of_toOption hg
  simp only [Bool.and_eq_true, beq_iff_eq] at hcheck
  obtain ⟨⟨⟨⟨hfetch, hsaved⟩, htemps⟩, hkinds⟩, hcode⟩ := hcheck
  obtain ⟨code, hok, hmem⟩ := (Option.any_eq_true _ _).mp hcode
  obtain ⟨svc, call, finish, hsvc, -, hperforms, -⟩ := performs_of_helperAddress hcompile hfetch
    (eq_ok_of_toOption hok) (List.contains_iff_mem.mp hmem)
  refine ⟨g, svc, call, ⟨fun r => if r = rsp then 4096 - 128 else 4096, none, fun _ => 0⟩,
    hcompile, hsvc, hsaved, hperforms, ?_, ?_, fun id n hkind => ?_⟩
  · rw [htemps]
    decide
  · rw [htemps]
    rfl
  · -- The function has no closure cells.
    rw [Array.all_eq_true_iff_forall_mem] at hkinds
    unfold IR.Function.kind IR.Function.operand at hkind
    rw [Array.getD_eq_getD_getElem?] at hkind
    cases ho : g.operands[id]? with
    | none =>
      rw [ho] at hkind
      cases hkind
    | some o =>
      rw [ho, Option.getD_some] at hkind
      have hall := hkinds o (Array.mem_of_getElem? ho)
      unfold IR.Operand.isTemp IR.Operand.isVar at hall
      rw [hkind] at hall
      cases hall

end Machine

end StackCompiler
