import StackCompiler.Compile
import StackCompiler.Proofs.Allocation.Separation
import StackCompiler.Proofs.Allocation.Success
import StackCompiler.Proofs.Machine.Jumps
import StackCompiler.Proofs.Passes.Reporting

/-!
# When compilation fails

A compilation fails where lowering fails, and where an error of the program is to be reported.
Nothing that comes after lowering fails otherwise: each pass gives code that is in order, there
is a register or a slot for every operand, and every jump reaches its label.  Reports change
nothing else, as a compilation that reports no error gives what it gives without reports.
-/

namespace StackCompiler

open Machine (HelperTable functionCode link programSize)

/-- The machine code of a compilation is of less than two gigabytes. -/
def SmallCode (f : Bytecode.Function) (o : Options) (helpers : HelperTable) : Prop :=
  ∀ g fragments, compileIR f o = .ok g → functionCode g = .ok fragments →
    programSize (link helpers fragments).items < 2 ^ 31

theorem Options.nodup_pool (o : Options) :
  o.pool.Nodup
  := List.Nodup.sublist (List.take_sublist ..) (by decide)

/-- The errors of a program are illegal casts and illegal arithmetic. -/
theorem CompileError.of_user {e : CompileError} (h : e.errorClass = .user) :
  ∃ text, e = .illegalCast text ∨ e = .illegalArithmetic text
  := by
  cases e with
  | illegalCast text => exact ⟨text, .inl rfl⟩
  | illegalArithmetic text => exact ⟨text, .inr rfl⟩
  | _ => cases h

variable {f : Bytecode.Function} {o : Options} {helpers : HelperTable}

/-- Allocation leaves the code as it is. -/
theorem IR.Function.placed_allocate {f f' g : IR.Function} {pool : List Register} {a : IR.Allocation}
    (hintervals : f.intervals = .ok f') (hallocate : f'.allocate pool = .ok (g, a)) :
  f'.Placed g
  := by
  obtain ⟨s, hscan, rfl⟩ := exists_scan_of_allocate hallocate
  obtain ⟨done, owners, now, h⟩ := keeps_scan (startsRight_intervals hintervals) hscan
  exact h.placed

/-- A compilation whose phases succeed gives allocated code. -/
theorem compileIR_eq {g h : IR.Function} {t : IR.State} {a : IR.Allocation}
    (hvalid : o.validate = .ok ()) (hlower : IR.lower f = .ok g) (hoptimize : IR.optimize g o = .ok t)
    (hallocate : t.func.allocate o.pool = .ok (h, a)) :
  compileIR f o = .ok h
  := by
  unfold compileIR
  simp only [hvalid, hlower, hoptimize, hallocate, bind, Except.bind, Attempt.result]
  rfl

/-- Machine code is generated for allocated code. -/
theorem compileNative_eq {h : IR.Function} (hcompile : compileIR f o = .ok h) :
  compileNative f o helpers = Machine.generate h helpers
  := by
  unfold compileNative
  rw [hcompile]
  rfl

/-- What the passes leave in order has machine code. -/
theorem exists_compileNative {g : IR.Function} {t : IR.State} (hvalid : o.validate = .ok ())
    (hlower : IR.lower f = .ok g) (hoptimize : IR.optimize g o = .ok t) (hready : t.Ready o)
    {f' : IR.Function} (hintervals : f'.intervals = .ok t.func) (hsmall : SmallCode f o helpers) :
  ∃ n, compileNative f o helpers = .ok n
  := by
  obtain ⟨h, a, hallocate⟩ := t.func.exists_allocate o.nodup_pool
  have hcompile := compileIR_eq hvalid hlower hoptimize hallocate
  have hsame := (IR.Function.placed_allocate hintervals hallocate).same
  have wf := hready.obsolete.wellFormed
  rw [compileNative_eq hcompile]
  exact Machine.exists_generate (hsame.keepsOrder wf).wellFormed (hsame.wired wf hready.wired)
    (hsame.close hready.close) fun fragments hfragments => hsmall h fragments hcompile hfragments

/-- An error of lowering is that of the compilation. -/
theorem compileNative_error {e : CompileError} (hvalid : o.validate = .ok ())
    (hlower : IR.lower f = .error e) :
  compileNative f o helpers = .error e
  := by
  unfold compileNative compileIR
  simp only [hvalid, hlower, bind, Except.bind]

/-- An error of the passes is that of the compilation. -/
theorem compileNative_stopped {g : IR.Function} {stopped : Stopped IR.State}
    (hvalid : o.validate = .ok ()) (hlower : IR.lower f = .ok g)
    (hoptimize : IR.optimize g o = .error stopped) :
  compileNative f o helpers = .error stopped.cause
  := by
  unfold compileNative compileIR
  simp only [hvalid, hlower, hoptimize, bind, Except.bind, Attempt.result]

/-- Reports change nothing in a compilation that reports no error. -/
theorem compileNative_quiet {g : IR.Function} {t : IR.State} (hvalid : o.validate = .ok ())
    (hlower : IR.lower f = .ok g) (hoptimize : IR.optimize g o = .ok t) :
  compileNative f o.quiet helpers = compileNative f o helpers
  := by
  obtain ⟨h, a, hallocate⟩ := t.func.exists_allocate o.nodup_pool
  have hcompile := compileIR_eq hvalid hlower hoptimize hallocate
  have hquiet : compileIR f o.quiet = .ok h :=
    compileIR_eq hvalid hlower (IR.optimize_quiet hoptimize) hallocate
  rw [compileNative_eq hcompile, compileNative_eq hquiet]

/-- Under valid options, a compilation fails with the error of lowering if there is one.  Without
reports it succeeds otherwise, and with them it gives the same machine code or an illegal cast or
operation. -/
theorem compileNative_outcome (helpers : HelperTable) (hvalid : o.registers.toNat ≤ Register.pool.length)
    (hmax : o.shortJumpMax.toNat ≤ 1) (hsmall : SmallCode f o.quiet helpers) :
  (∀ e, IR.lower f = .error e → compileNative f o helpers = .error e) ∧
  ∀ g, IR.lower f = .ok g → ∃ n, compileNative f o.quiet helpers = .ok n ∧
    (compileNative f o helpers = .ok n ∨ o.reportErrors = true ∧
      ∃ text, compileNative f o helpers = .error (.illegalCast text) ∨
        compileNative f o helpers = .error (.illegalArithmetic text))
  := by
  have hok : o.validate = .ok () := if_pos hvalid
  refine ⟨fun e he => compileNative_error hok he, fun g hg => ?_⟩
  have hquiet : ∃ n, compileNative f o.quiet helpers = .ok n := by
    rcases IR.optimize_cases (o := o.quiet) hg hmax with ⟨t, ht, hready, f', hf'⟩ | ⟨_, _, hreport, _⟩
    · exact exists_compileNative hok hg ht hready hf' hsmall
    · cases hreport
  obtain ⟨n, hn⟩ := hquiet
  refine ⟨n, hn, ?_⟩
  rcases IR.optimize_cases hg hmax with ⟨t, ht, -⟩ | ⟨stopped, hstopped, hreport, huser⟩
  · rw [← compileNative_quiet hok hg ht]
    exact .inl hn
  · obtain ⟨text, htext⟩ := CompileError.of_user huser
    rw [compileNative_stopped hok hg hstopped]
    exact .inr ⟨hreport, text, htext.imp (congrArg _) (congrArg _)⟩

/-- Subtracts a number from a text. -/
def Bytecode.Function.illTyped : Bytecode.Function where
  constants := [.string "a", .integer 1]
  instructions := [⟨.loadConst, some 0⟩, ⟨.loadConst, some 1⟩, ⟨.sub, none⟩, ⟨.ret, none⟩]

/-- A subtraction from a text is reported if that is asked for, and compiled otherwise. -/
theorem compileNative_outcome_illTyped :
  SmallCode .illTyped { reportErrors := false } [] ∧
  ∃ n text, compileNative .illTyped { reportErrors := false } [] = .ok n ∧
    compileNative .illTyped { reportErrors := true } [] = .error (.illegalCast text)
  := by
  have hlower : (IR.lower .illTyped).isOk = true := by decide +kernel
  obtain ⟨g, hg⟩ := IR.exists_eq_ok hlower
  have hstop : (match compileNative .illTyped { reportErrors := true } [] with
      | .error (.illegalCast _) => true
      | _ => false) = true := by
    decide +kernel
  -- The operands are in the order of placement already, so nothing needs to be sorted.
  have hsize : (match IR.lower .illTyped with
      | .error _ => false
      | .ok g => match IR.optimize g {} with
        | .error _ => false
        | .ok t =>
          let f := t.func.clearRegisters
          let order := f.values.filter fun id => (f.operand id).isLive
          decide (order.Pairwise fun x y => f.placedBefore x y = true) &&
            match order.foldlM IR.LinearScan.place { func := f, pool := ({} : Options).pool } with
            | .error _ => false
            | .ok s => match functionCode s.func with
              | .error _ => false
              | .ok fragments => decide (programSize (link [] fragments).items < 2 ^ 31)) = true := by
    decide +kernel
  have hsmall : SmallCode .illTyped { reportErrors := false } [] := by
    intro h fragments hcompile hcode
    rw [hg] at hsize
    dsimp only at hsize
    split at hsize
    · cases hsize
    · rename_i t ht
      rw [Bool.and_eq_true, decide_eq_true_eq] at hsize
      obtain ⟨hsorted, hsize⟩ := hsize
      rw [← List.mergeSort_of_pairwise hsorted] at hsize
      split at hsize
      · cases hsize
      · rename_i s hs
        have hallocate : t.func.allocate ({} : Options).pool
            = .ok (s.func, s.func.summarize s.shared) := by
          unfold IR.Function.allocate
          rw [show t.func.scan ({} : Options).pool = .ok s from hs]
        rw [compileIR_eq rfl hg ht hallocate] at hcompile
        cases hcompile
        rw [hcode] at hsize
        exact of_decide_eq_true hsize
  obtain ⟨n, hn, houtcome⟩ := (compileNative_outcome (o := { reportErrors := true }) [] (by decide)
    (by decide) hsmall).2 g hg
  refine ⟨hsmall, n, ?_⟩
  rcases houtcome with hok | ⟨-, text, hcast | harithmetic⟩
  · rw [hok] at hstop
    cases hstop
  · exact ⟨text, hn, hcast⟩
  · rw [harithmetic] at hstop
    cases hstop

end StackCompiler
