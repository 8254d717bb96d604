import StackCompiler.Proofs.Meaning.Forwarding
import StackCompiler.Proofs.Passes.Nesting

/-!
# Rounds of passes preserve meaning

Each change that a pass makes is one of those of the modules before.  Whatever code returns, the
code after a change returns as well, and the next change can be made to it.
-/

namespace StackCompiler.IR

open Bytecode (Constant)

variable {World : Type} {rt : Runtime World}

namespace Function

variable {f f' : Function} {pos : Nat}

/-! ### Literals -/

/-- Literals stay small when what is read was read before, or is a temp or a small literal. -/
theorem InPlace.smallLiterals (h : f.InPlace f') (wf : f.WellFormed) (hsmall : f.SmallLiterals)
    (hreads : ∀ p id, f'.ReadsAt p id → f.ReadsAt p id ∨ f'.isTemp id = true ∨
      ∃ k, f'.kind id = .const k ∧ k.IsSmall) :
  f'.SmallLiterals
  := by
  intro p id k hread hk
  rcases hreads p id hread with hread | htemp | ⟨k', hk', hsmall'⟩
  · have hlt : id < f.operands.size := by
      obtain ⟨i, hi, hid⟩ := hread
      exact (wf.fits p i hi).use_lt id hid
    rw [h.kind_eq id hlt] at hk
    exact hsmall p id k hread hk
  · obtain ⟨n, hn⟩ := isTemp_iff.mp htemp
    rw [hn] at hk
    cases hk
  · rw [hk'] at hk
    cases hk
    exact hsmall'

/-- Literals still fit when an instruction is replaced by one that reads what was read there, or
literals that fit. -/
theorem InPlace.smallLiterals_of_replaced (h : f.InPlace f') (wf : f.WellFormed)
    (hsmall : f.SmallLiterals) {new : Inst}
    (hview : ∀ p, f'.fetch p = if p = pos then some new else f.fetch p)
    (hnew : ∀ id ∈ new.uses, f.ReadsAt pos id ∨ ∃ k, f'.kind id = .const k ∧ k.IsSmall) :
  f'.SmallLiterals
  := by
  apply h.smallLiterals wf hsmall
  rintro p id ⟨i, hi, hid⟩
  rw [hview] at hi
  split at hi
  · rename_i hp
    cases hi
    rcases hnew id hid with hread | hliteral
    · exact .inl (hp ▸ hread)
    · exact .inr (.inr hliteral)
  · exact .inl ⟨i, hi, hid⟩

/-- Literals still fit when an instruction that is no label is removed. -/
theorem smallLiterals_remove (wf : f.WellFormed) (hsmall : f.SmallLiterals) {old : Inst}
    (hfetch : f.fetch pos = some old) (hold : ∀ l, old ≠ .label l) :
  (f.remove pos).SmallLiterals
  := by
  apply (inPlace_remove hfetch hold).smallLiterals wf hsmall
  exact fun p id ⟨i, hi, hid⟩ => .inl ⟨i, (fetch_of_fetch_remove hi).1, hid⟩

/-- Compaction keeps which literals are read. -/
theorem Compacts.smallLiterals_iff {φ : Nat → Nat} (h : f.Compacts f' φ) :
  f'.SmallLiterals ↔ f.SmallLiterals
  := by
  constructor
  · intro hsmall p id k hread hk
    exact hsmall (φ p) id k (h.reads hread) ((h.kind_eq id).trans hk)
  · intro hsmall q id k hread hk
    obtain ⟨p, -, hread⟩ := h.exists_reads hread
    exact hsmall p id k hread ((h.kind_eq id).symm.trans hk)

/-- Literals still fit when a stored value is forwarded to the load that follows. -/
theorem smallLiterals_forwarded (wf : f.WellFormed) (hsmall : f.SmallLiterals) (hp : f.pending = [])
    {location src dest : OperandId} (hpair : f.storeThenLoad? pos = some (location, src, dest)) :
  (f.forwarded pos location src dest).SmallLiterals
  := by
  obtain ⟨φ, hφ⟩ := compacts_roomToForward wf hp hpair
  apply (inPlace_forwarded wf hp hpair).smallLiterals (wellFormed_roomToForward wf hp hpair)
    (hφ.smallLiterals_iff.mp hsmall)
  intro p id hread
  rcases reads_forwarded wf hp hpair hread with hread | ⟨-, rfl⟩ | ⟨-, rfl⟩
  · exact .inl hread
  · exact .inr (.inl (isTemp_of_new wf hp hpair (.inl rfl)).2)
  · exact .inr (.inl (isTemp_of_new wf hp hpair (.inr rfl)).2)

/-! ### Changes -/

/-- What the passes rely on when they change code. -/
structure Optimizable (f : Function) : Prop extends f.Checked where
  nested : f.LoopsNest
  small : f.SmallLiterals

end Function

open IR.Function

variable {f f' : Function}

/-- Every change of a round keeps literals small. -/
theorem Edit.smallLiterals (h : Edit f f') (wf : f.WellFormed) (hsmall : f.SmallLiterals) :
  f'.SmallLiterals
  := by
  cases h with
  | annotate same =>
    apply same.inPlace.smallLiterals wf hsmall
    exact fun p id ⟨i, hi, hid⟩ => .inl ⟨i, (same.fetch_eq p).symm.trans hi, hid⟩
  | fold hfetch hresult =>
    have hlabel := (defs_of_foldInst? hresult).2.2
    apply (inPlace_foldedTo hfetch hlabel).smallLiterals_of_replaced wf hsmall (fetch_foldedTo hfetch)
    intro id hid
    cases List.mem_singleton.mp hid
    refine .inr ⟨_, kind_foldedTo_size, ?_⟩
    rcases foldInst?_eq_some hresult with ⟨op, _, _, l, r, -, -, -, -, hfold⟩ | ⟨op, _, c, -, -, -, hfold⟩
    · exact BinOp.isSmall_of_fold hfold.symm
    · exact UnOp.isSmall_of_fold hfold.symm
  | specialize hfetch =>
    apply (inPlace_specialized hfetch).smallLiterals_of_replaced wf hsmall (fetch_specialized hfetch)
    exact fun id hid => .inl ⟨_, hfetch, hid⟩
  | rename hfetch htemp =>
    apply (inPlace_renamed ..).smallLiterals wf hsmall
    intro p u hread
    rcases reads_renamed hread with ⟨hread, -⟩ | ⟨-, rfl⟩
    · exact .inl hread
    · exact .inr (.inl htemp)
  | erase hfetch hpure =>
    apply smallLiterals_remove wf hsmall hfetch
    rintro l rfl
    cases hpure
  | eraseAssertion hfetch => exact smallLiterals_remove wf hsmall hfetch fun _ => nofun
  | narrow hfetch =>
    obtain ⟨a, b, hold, -, hplace⟩ := exists_fork hfetch
    apply hplace.smallLiterals_of_replaced wf hsmall (fetch_replace hold _)
    exact fun id hid => .inl ⟨_, hold, hid⟩
  | eraseStore hfetch => exact smallLiterals_remove wf hsmall hfetch fun _ => nofun
  | forward hpending hpair => exact smallLiterals_forwarded wf hsmall hpending hpair
  | compact =>
    obtain ⟨φ, hφ⟩ := compacts_compact wf.labels
    exact hφ.smallLiterals_iff.mpr hsmall

/-- Every change keeps what rounds need of code. -/
theorem Edit.optimizable (h : Edit f f') (hf : f.Optimizable) :
  f'.Optimizable
  := ⟨h.checked hf.toChecked, h.loopsNest hf.wellFormed hf.nested, h.smallLiterals hf.wellFormed hf.small⟩

/-- Every change of a round preserves meaning. -/
theorem Edit.preservedBy (h : Edit f f') (hrt : rt.Lawful) (hf : f.Optimizable) :
  f.PreservedBy rt f'
  := by
  have hf' := h.optimizable hf
  cases h with
  | annotate same => exact same.preservedBy
  | fold hfetch hresult => exact preservedBy_foldedTo hrt hf.toChecked hf.small hfetch hresult
  | specialize hfetch hknown => exact preservedBy_specialized hrt hf.toChecked hfetch hknown
  | rename hfetch htemp => exact preservedBy_renamed hf.toChecked hfetch htemp
  | erase hfetch hpure hunread => exact preservedBy_erased hrt hf.toChecked hfetch hpure hunread
  | eraseAssertion hfetch => exact preservedBy_assertion_removed hf.toChecked hf'.toChecked hfetch
  | narrow hfetch hunread => exact preservedBy_narrowed hf.toChecked hfetch hunread
  | eraseStore hfetch hvar hunread =>
    exact preservedBy_store_removed hf.toChecked hf'.toChecked hf'.nested hfetch hvar hunread
  | forward hpending hpair => exact preservedBy_forwarded hf.toChecked hpending hpair hrt
  | compact =>
    obtain ⟨φ, hφ⟩ := compacts_compact hf.wellFormed.labels
    exact hφ.preservedBy fun l p => (hf.wellFormed.labels l p).mp

end StackCompiler.IR
