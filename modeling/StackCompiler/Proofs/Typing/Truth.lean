import StackCompiler.Proofs.Passes.Rounds
import StackCompiler.Proofs.Typing.Soundness

/-!
# Hints are true

Whatever passes of a round have run, what is recorded of temps and variables holds of every
value that is written to them.
-/

namespace StackCompiler.IR

variable {World : Type}

/-- After the entry loads of lowered code and any calls of passes of a round, in every run a
value written to a temp or variable is of a type that is recorded of it, if any is, and a value
written to a temp that is recorded to equal a literal is the value of the literal. -/
theorem hints_true {f : Bytecode.Function} {g : Function} (hlower : lower f = .ok g)
    (hempty : f.EmptyAtJumps) {ctx : Context} (hctx : ctx.obsolete = []) {passes : List PassName}
    (hpasses : ∀ p ∈ passes, p ∈ PassName.round) {rt : Runtime World} (hrt : rt.Typed)
    (locals : Nat → Value) (scratch : Cells) (world : World) :
  let h := (State.callAll ⟨g, ctx⟩ (.loadVars :: passes)).func
  ∀ n c id v, h.run rt locals n (h.start locals scratch world) = .running c →
    (id, v) ∈ h.writes rt locals c →
    (h.isTemp id = true ∨ h.isVar id = true → (h.operand id).types ≠ .empty →
      v.HasType (h.operand id).types) ∧
    (h.isTemp id = true → ∀ k, (h.operand id).constant = some k → v = .ofConstant k)
  := by
  intro h n c id v hrun hwrite
  obtain ⟨hchecked, s, hload, hreach⟩ := State.reaches_loadVars hlower hempty hctx
  have hcalls : State.callAll ⟨g, ctx⟩ (.loadVars :: passes) = s.callAll passes := by
    unfold State.callAll
    rw [List.foldl_cons, hload]
    rfl
  have hedits := hreach.edits.trans (State.reaches_callAll hpasses hreach.settled).edits
  have hfinal : h.Checked := by
    change (State.callAll ⟨g, ctx⟩ (.loadVars :: passes)).func.Checked
    rw [hcalls]
    exact Edits.checked hedits hchecked
  exact hfinal.hints_hold hrt hrun hwrite

/-- After three steps of a loop that counts down, an operand that is known to be an integer is
filled with an integer. -/
theorem hints_true_countdown :
  Bytecode.Function.countdown.EmptyAtJumps ∧ ∃ g, lower .countdown = .ok g ∧
    let h := (State.callAll ⟨g, { options := {} }⟩ [.loadVars, .propagateTypes, .specializeTypes]).func
    ∃ c v, h.run .arithmetic (fun _ => .int 2) 3 (h.start (fun _ => .int 2) (fun _ => .none) ())
        = .running c ∧ (3, v) ∈ h.writes .arithmetic (fun _ => .int 2) c ∧
      (h.operand 3).types = .ints ∧ v.HasType .ints ∧ v = .ofConstant (.integer 0)
  := by
  have he : Bytecode.Function.countdown.EmptyAtJumps := by decide +kernel
  have hok : (lower .countdown).isOk = true := by decide +kernel
  obtain ⟨g, hg⟩ := exists_eq_ok hok
  have hrun : (match lower .countdown with
      | .error _ => false
      | .ok g =>
        let h := (State.callAll ⟨g, { options := {} }⟩ [.loadVars, .propagateTypes, .specializeTypes]).func
        h.isTemp 3 && (h.operand 3).types == .ints && (h.operand 3).constant == some (.integer 0) &&
          match h.run .arithmetic (fun _ => .int 2) 3 (h.start (fun _ => .int 2) (fun _ => .none) ()) with
          | .running c => ((h.writes .arithmetic (fun _ => .int 2) c).map Prod.fst).contains 3
          | .ended _ => false) = true := by
    decide +kernel
  rw [hg] at hrun
  simp only [Bool.and_eq_true, beq_iff_eq] at hrun
  obtain ⟨⟨⟨htemp, htypes⟩, hconstant⟩, hrun⟩ := hrun
  split at hrun
  · rename_i c hc
    obtain ⟨⟨_, v⟩, hv, rfl⟩ := List.mem_map.mp (List.contains_iff_mem.mp hrun)
    have htrue := hints_true hg he rfl (by decide) Runtime.lawful_arithmetic.toTyped
      (fun _ => .int 2) (fun _ => .none) () 3 c 3 v hc hv
    rw [htypes] at htrue
    exact ⟨he, g, hg, c, v, hc, hv, htypes, htrue.1 (.inl htemp) (by decide),
      htrue.2 htemp _ hconstant⟩
  · cases hrun

end StackCompiler.IR
