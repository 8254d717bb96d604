import StackCompiler.Proofs.Passes.EditStructure

/-!
# Functions that return the same

A function is preserved by another one that returns whatever it returns, with the same world
and the same effects left behind.  Code is preserved when nothing that a step depends on
changes, when removed positions go, and when room is made for an instruction.
-/

namespace StackCompiler.IR

variable {World : Type}

/-- Whether the runtime has to be asked for an operand of this kind. -/
def OperandKind.isRemote : OperandKind → Bool
  | global _ | contents _ | function _ => true
  | _ => false

/-- An assignment from what is kept in the function fills its destination. -/
theorem Inst.action_assign_of_not_remote {f : Function} {rt : Runtime World} {value : OperandId → Value}
    {d s : OperandId} (h : (f.kind s).isRemote = false) :
  (assign d s).action f rt value = .fill [(d, value s)]
  := by
  simp only [action]
  split
  case h_4 => rfl
  all_goals
    rename_i hkind
    rw [hkind] at h
    cases h

/-- What an instruction comes to depends on the values that it finds and the kinds of its
operands only. -/
theorem Inst.action_mapUses {f f' : Function} {rt : Runtime World} {value value' : OperandId → Value}
    {r : OperandId → OperandId} {inst : Inst}
    (hvalue : ∀ id ∈ inst.uses, (∀ d, inst = .assign d id → (f.kind id).isRemote = false) →
      value' (r id) = value id)
    (hsource : ∀ d s, inst = .assign d s → f'.kind (r s) = f.kind s ∨
      (f.kind s).isRemote = false ∧ (f'.kind (r s)).isRemote = false)
    (hplace : ∀ x s, inst = .store x s → f'.kind x = f.kind x) :
  (inst.mapUses r).action f' rt value' = inst.action f rt value
  := by
  have hread : (∀ d s, inst ≠ .assign d s) → ∀ id ∈ inst.uses, value' (r id) = value id :=
    fun hinst id hid => hvalue id hid fun d hd => absurd hd (hinst d id)
  cases inst with
  | assign d s =>
    have hs : s ∈ (assign d s).uses := List.mem_singleton.mpr rfl
    cases hremote : (f.kind s).isRemote with
    | false =>
      have hremote' : (f'.kind (r s)).isRemote = false := by
        rcases hsource d s rfl with hkind | ⟨-, hkind⟩
        · rw [hkind, hremote]
        · exact hkind
      have hv := hvalue s hs fun _ _ => hremote
      rw [action_assign_of_not_remote hremote, ← hv]
      exact action_assign_of_not_remote hremote'
    | true =>
      have hkind : f'.kind (r s) = f.kind s := by
        rcases hsource d s rfl with hkind | ⟨hkind, -⟩
        · exact hkind
        · rw [hremote] at hkind
          cases hkind
      simp only [mapUses, action, hkind]
      cases hkind' : f.kind s <;> rw [hkind'] at hremote <;> first | rfl | cases hremote
  | store x s =>
    have hs : value' (r s) = value s := hread (by rintro _ _ ⟨⟩) s (List.mem_singleton.mpr rfl)
    simp only [mapUses, action, hs, hplace x s rfl]
  | binary op d lhs rhs =>
    have hl : value' (r lhs) = value lhs := hread (by rintro _ _ ⟨⟩) lhs (by simp [uses])
    have hr : value' (r rhs) = value rhs := hread (by rintro _ _ ⟨⟩) rhs (by simp [uses])
    cases op <;> simp only [mapUses, action, hl, hr]
  | unary op d s =>
    have hs : value' (r s) = value s := hread (by rintro _ _ ⟨⟩) s (List.mem_singleton.mpr rfl)
    simp only [mapUses, action, hs]
  | call closure args =>
    have hargs : (args.map r).map value' = args.map value := by
      rw [List.map_map]
      exact List.map_congr_left fun id hid => hread (by rintro _ _ ⟨⟩) id (by simp [uses, hid])
    simp only [mapUses, action, hread (by rintro _ _ ⟨⟩) closure (by simp [uses]), hargs]
  | allocClosure function refs =>
    have hrefs : (refs.map r).map value' = refs.map value := by
      rw [List.map_map]
      exact List.map_congr_left fun id hid => hread (by rintro _ _ ⟨⟩) id (by simp [uses, hid])
    simp only [mapUses, action, hread (by rintro _ _ ⟨⟩) function (by simp [uses]), hrefs]
  | helper request =>
    have huses := hread (by rintro _ _ ⟨⟩)
    cases request <;> simp_all [mapUses, action, uses, HelperCall.uses, HelperCall.request,
      HelperCall.mapUses, HelperCall.target]
  | _ =>
    have huses := hread (by rintro _ _ ⟨⟩)
    simp_all [mapUses, action, uses]

/-- What an instruction comes to depends on the values and the kinds of its operands only. -/
theorem Inst.action_congr {f f' : Function} {rt : Runtime World} {value value' : OperandId → Value}
    {inst : Inst}
    (hvalue : ∀ id ∈ inst.uses, (∀ d, inst = .assign d id → (f.kind id).isRemote = false) →
      value' id = value id)
    (hkind : ∀ id, id ∈ inst.uses ∨ (∃ s, inst = .store id s) → f'.kind id = f.kind id) :
  inst.action f' rt value' = inst.action f rt value
  := by
  have hsame : inst.mapUses (fun id => id) = inst := mapUses_of_fixed fun _ _ => rfl
  rw [← action_mapUses (r := fun id => id) hvalue, hsame]
  · rintro d s rfl
    exact .inl (hkind s (.inl (List.mem_singleton.mpr rfl)))
  · rintro x s rfl
    exact hkind x (.inr ⟨s, rfl⟩)

namespace Function

variable {f f' f'' : Function} {rt : Runtime World} {locals : Nat → Value} {c c' : Config World}

/-- A run from a state returns a value and leaves a world and effects behind. -/
def Returns (f : Function) (rt : Runtime World) (locals : Nat → Value) (c : Config World) (v : Value)
    (w : World) (es : List Request) : Prop :=
  ∃ n trace, f.run rt locals n c = .ended (.returned v w trace) ∧ effects trace = es

/-- Whatever a function returns another one returns as well, from the same locals in the same
world. -/
def PreservedBy (rt : Runtime World) (f f' : Function) : Prop :=
  ∀ locals scratch world v w es, f.Returns rt locals (f.start locals scratch world) v w es →
    f'.Returns rt locals (f'.start locals scratch world) v w es

theorem PreservedBy.refl (f : Function) :
  f.PreservedBy rt f
  := fun _ _ _ _ _ _ h => h

theorem PreservedBy.trans (h : f.PreservedBy rt f') (h' : f'.PreservedBy rt f'') :
  f.PreservedBy rt f''
  := fun locals scratch world v w es hf => h' locals scratch world v w es (h locals scratch world v w es hf)

/-! ### The same steps -/

theorem read_congr {id : OperandId} (hkind : f'.kind id = f.kind id) (hresult : c'.result = c.result)
    (hcells : c'.cells id = c.cells id) :
  f'.read rt c' id = f.read rt c id
  := by
  unfold read
  rw [hkind, hresult, hcells]

theorem entryValue_congr {id : OperandId} (hkind : f'.kind id = f.kind id) :
  f'.entryValue locals id = f.entryValue locals id
  := by
  unfold entryValue
  rw [hkind]

theorem start_congr (hkind : ∀ id, f'.kind id = f.kind id) (scratch : Cells) (world : World) :
  f'.start locals scratch world = f.start locals scratch world
  := by
  unfold start
  simp only [entryValue_congr (hkind _)]

/-- Two functions do the same step at a position where both have the same instruction, or the two
forms of one jump. -/
theorem step_congr (hsize : f'.size = f.size) (hlabels : ∀ l, f'.labels.at? l = f.labels.at? l)
    (hkind : ∀ id, f'.kind id = f.kind id)
    (hview : f'.fetch c.pos = f.fetch c.pos ∨
      ∃ l, f.fetch c.pos = some (.jump l) ∧ f'.fetch c.pos = some (.shortJump l)) :
  f'.step rt locals c = f.step rt locals c
  := by
  have hread : f'.read rt c = f.read rt c := funext fun id => read_congr (hkind id) rfl rfl
  have hperform : ∀ action, f'.perform rt locals c action = f.perform rt locals c action := by
    intro action
    cases action <;> simp only [perform, hlabels, entryValue_congr (hkind _)]
  unfold step
  rw [hsize]
  rcases hview with hsame | ⟨l, hjump, hshort⟩
  · rw [hsame]
    cases f.fetch c.pos with
    | none => rfl
    | some inst =>
      dsimp only
      rw [hperform, Inst.action_congr (fun _ _ _ => congrFun hread _) fun id _ => hkind id]
  · rw [hjump, hshort]
    dsimp only
    rw [hperform]
    rfl

/-- A function is preserved by one with operands of the same kinds that makes the same steps. -/
theorem preservedBy_of_step_eq (hkind : ∀ id, f'.kind id = f.kind id)
    (hstep : ∀ locals c, f'.step rt locals c = f.step rt locals c) :
  f.PreservedBy rt f'
  := by
  rintro locals scratch world v w es ⟨n, trace, hrun, heffects⟩
  refine ⟨n, trace, ?_, heffects⟩
  rw [start_congr hkind, ← hrun]
  apply Progress.run_congr (I := fun _ => True)
  · intros
    trivial
  · exact fun c _ => hstep locals c
  · trivial

/-- A function is preserved by one with the same code. -/
theorem SameCode.preservedBy (h : f.SameCode f') :
  f.PreservedBy rt f'
  := by
  apply preservedBy_of_step_eq h.kind_eq
  intro locals c
  apply step_congr h.inPlace.size_eq h.inPlace.labels_eq h.kind_eq
  exact .inl (h.fetch_eq c.pos)

/-- A step that asks the runtime was answered. -/
theorem exists_answer {request : Request} {target : Target} {d : Config World}
    (h : f.perform rt locals c (.ask request target) = .running d) :
  ∃ v w, rt.serve request c.world = some (v, w) ∧
    d = ({ c.next with world := w, trace := c.trace ++ [request] } : Config World).deliver v target
  := by
  simp only [perform] at h
  split at h
  · rename_i v w hserve
    cases h
    exact ⟨v, w, hserve, rfl⟩
  · cases h

/-! ### Removed positions -/

namespace Compacts

variable {φ : Nat → Nat}

/-- A state of the code without the removed positions. -/
def moved (φ : Nat → Nat) (c : Config World) : Config World := { c with pos := φ c.pos }

/-- An outcome of the code without the removed positions. -/
def movedOutcome (φ : Nat → Nat) : Outcome World → Outcome World
  | .failed pos world trace => .failed (φ pos) world trace
  | o => o

/-- An action has the same effect in both codes: they run on to states, or end with outcomes, which
differ by the map `φ` of positions only. -/
theorem perform_moved (h : f.Compacts f' φ)
    (hlabels : ∀ l p, f.labels.at? l = some p → f.fetch p = some (.label l)) (hlt : c.pos < f.size)
    (hsucc : φ (c.pos + 1) = φ c.pos + 1) (action : Action) :
  (∃ d, f.perform rt locals c action = .running d ∧
    f'.perform rt locals (moved φ c) action = .running (moved φ d) ∧ d.pos ≤ f.size) ∨
  ∃ o, f.perform rt locals c action = .ended o ∧
    f'.perform rt locals (moved φ c) action = .ended (movedOutcome φ o)
  := by
  have hnext : (moved φ c).next = moved φ c.next := by
    unfold moved Config.next
    rw [hsucc]
  cases action with
  | fill writes =>
    left
    refine ⟨{ c.next with cells := c.cells.fill writes }, rfl, ?_, hlt⟩
    simp only [perform, hnext]
    rfl
  | ask request target =>
    simp only [perform]
    have hworld : (moved φ c).world = c.world := rfl
    rw [hworld]
    cases rt.serve request c.world with
    | none => exact .inr ⟨_, rfl, rfl⟩
    | some answer =>
      left
      refine ⟨_, rfl, ?_, ?_⟩
      · rw [hnext]
        cases target <;> rfl
      · cases target <;> exact hlt
  | reload var =>
    simp only [perform]
    rw [entryValue_congr (h.kind_eq var), hnext]
    left
    cases f.entryValue locals var with
    | none => exact ⟨_, rfl, rfl, hlt⟩
    | some v => exact ⟨_, rfl, rfl, hlt⟩
  | goto l =>
    simp only [perform]
    cases hl : f.labels.at? l with
    | none =>
      right
      have hl' : f'.labels.at? l = none := by
        cases hl' : f'.labels.at? l with
        | none => rfl
        | some q =>
          obtain ⟨p, hp, -⟩ := h.labels' l q hl'
          rw [hl] at hp
          cases hp
      rw [hl']
      exact ⟨_, rfl, rfl⟩
    | some p =>
      left
      rw [h.labels l p hl]
      exact ⟨_, rfl, rfl, Nat.le_of_lt (lt_size_of_fetch (hlabels l p hl))⟩
  | ret v => exact .inr ⟨_, rfl, rfl⟩
  | fail => exact .inr ⟨_, rfl, rfl⟩

/-- A step is matched by the same one where an instruction is left, and by none where it was
removed. -/
theorem isMatched (h : f.Compacts f' φ)
    (hlabels : ∀ l p, f.labels.at? l = some p → f.fetch p = some (.label l)) :
  Progress.Matches (f.step rt locals) (f'.step rt locals)
    (fun c c' => c.pos ≤ f.size ∧ c' = moved φ c) (fun o o' => o' = movedOutcome φ o)
    (fun c => f.size - c.pos)
  := by
  rintro c _ ⟨hle, rfl⟩
  rcases Nat.lt_or_eq_of_le hle with hlt | heq
  · cases hfetch : f.fetch c.pos with
    | none =>
      left
      refine ⟨c.next, 0, moved φ c, step_of_fetch_none hlt hfetch, rfl, ⟨hlt, ?_⟩, fun _ => ?_⟩
      · unfold moved Config.next
        rw [h.drop c.pos hlt hfetch]
      · simp only [Config.next]
        omega
    | some inst =>
      obtain ⟨hsucc, hfetch'⟩ := h.keep c.pos inst hfetch
      have haction : inst.action f' rt (f'.read rt (moved φ c)) = inst.action f rt (f.read rt c) :=
        Inst.action_congr (fun id _ _ => read_congr (h.kind_eq id) rfl rfl) fun id _ => h.kind_eq id
      have hstep' : f'.step rt locals (moved φ c) = f'.perform rt locals (moved φ c) _ :=
        step_of_fetch (lt_size_of_fetch hfetch') hfetch'
      rw [haction] at hstep'
      unfold Progress.Matched
      rw [step_of_fetch hlt hfetch]
      rcases h.perform_moved hlabels hlt hsucc (inst.action f rt (f.read rt c)) with
        ⟨d, hd, hd', hsize⟩ | ⟨o, ho, ho'⟩
      · left
        exact ⟨d, 1, moved φ d, hd, by rw [Progress.run_one, hstep', hd'], ⟨hsize, rfl⟩, nofun⟩
      · right
        exact ⟨o, 1, _, ho, by rw [Progress.run_one, hstep', ho'], rfl⟩
  · right
    refine ⟨_, 1, _, step_of_size_le (Nat.le_of_eq heq.symm), ?_, rfl⟩
    rw [Progress.run_one]
    apply step_of_size_le
    rw [← h.size, ← heq]
    exact Nat.le_refl _

/-- The state on entry to compacted code is that on entry to the code, moved. -/
theorem start_moved (h : f.Compacts f' φ) (scratch : Cells) (world : World) :
  f'.start locals scratch world = moved φ (f.start locals scratch world)
  := by
  rw [start_congr h.kind_eq]
  unfold moved
  rw [show (f.start locals scratch world).pos = 0 from rfl, h.zero]
  rfl

/-- Removed positions can go. -/
theorem preservedBy (h : f.Compacts f' φ)
    (hlabels : ∀ l p, f.labels.at? l = some p → f.fetch p = some (.label l)) :
  f.PreservedBy rt f'
  := by
  rintro locals scratch world v w es ⟨n, trace, hrun, heffects⟩
  obtain ⟨m, o, hm, rfl⟩ := (h.isMatched hlabels).exists_run
    ⟨Nat.zero_le _, h.start_moved scratch world⟩ hrun
  exact ⟨m, trace, hm, heffects⟩

/-- Room can be made for instructions. -/
theorem preservedBy_back (h : f.Compacts f' φ)
    (hlabels : ∀ l p, f.labels.at? l = some p → f.fetch p = some (.label l)) :
  f'.PreservedBy rt f
  := by
  rintro locals scratch world v w es ⟨n, trace, hrun, heffects⟩
  obtain ⟨m, o, hm, ho⟩ := (h.isMatched hlabels).exists_run_of_run
    ⟨Nat.zero_le _, h.start_moved scratch world⟩ hrun
  cases o with
  | returned v' w' trace' =>
    cases ho
    exact ⟨m, trace, hm, heffects⟩
  | failed => cases ho

end Compacts

end Function

end StackCompiler.IR
