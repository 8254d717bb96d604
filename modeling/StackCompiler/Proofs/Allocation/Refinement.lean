import StackCompiler.Proofs.Allocation.Holding
import StackCompiler.Proofs.Meaning.Agreement

/-!
# Allocation preserves runs

A run with registers `Shadows` one with a cell for each temp and variable: both are in the same
place, and what is held there is in the place that allocation gave it.  Each step keeps this,
whatever helpers leave in registers, so both runs take the same path, read the same values and
come to the same outcome.
-/

namespace StackCompiler

/-! ### Machines in step -/

/-- Two machines have come equally far: they are in states that belong together, or they have
come to the same outcome. -/
inductive Progress.InStep {σ σ' ω : Type} (R : σ → σ' → Prop) : Progress σ ω → Progress σ' ω → Prop where
  | running {s : σ} {s' : σ'} (h : R s s') : InStep R (.running s) (.running s')
  | ended (o : ω) : InStep R (.ended o) (.ended o)

theorem Progress.InStep.mono {σ σ' ω : Type} {R R' : σ → σ' → Prop} {p : Progress σ ω}
    {p' : Progress σ' ω} (h : InStep R p p') (hR : ∀ s s', p = .running s → R s s' → R' s s') :
  InStep R' p p'
  := by
  cases h with
  | running h => exact .running (hR _ _ rfl h)
  | ended o => exact .ended o

namespace IR

variable {World : Type}

/-! ### Single steps -/

/-- An instruction fills what it fills with one value. -/
theorem Inst.exists_value_of_fill {f : Function} {rt : Runtime World} {value : OperandId → Value}
    {inst : Inst} {writes : List (OperandId × Value)} (h : inst.action f rt value = .fill writes) :
  ∃ v, ∀ w ∈ writes, w.2 = v
  := by
  have hnil : [] = writes → ∃ v, ∀ w ∈ writes, w.2 = v := by
    rintro rfl
    exact ⟨.none, nofun⟩
  have hsingle : ∀ d v, Action.fill [(d, v)] = .fill writes → ∃ v, ∀ w ∈ writes, w.2 = v := by
    intro d v hfill
    cases hfill
    exact ⟨v, by simp⟩
  have hfillWith : ∀ d v?, Action.fillWith d v? = .fill writes → ∃ v, ∀ w ∈ writes, w.2 = v := by
    intro d v? hfill
    cases v? with
    | none => cases hfill
    | some v => exact hsingle d v hfill
  cases inst with
  | assign d s =>
    rcases action_assign f rt value d s with haction | ⟨request, -, haction⟩
    · exact hsingle d _ (haction.symm.trans h)
    · cases haction.symm.trans h
  | store x s =>
    rcases action_store f rt value x s with haction | ⟨-, request, haction⟩
    · exact hsingle x _ (haction.symm.trans h)
    · cases haction.symm.trans h
  | binary op d l r =>
    by_cases hop : op = .add ∨ op = .eq
    · rcases hop with rfl | rfl <;> cases h
    · rw [not_or] at hop
      rw [action_binary hop.1 hop.2] at h
      exact hfillWith d _ h
  | unary op d s => exact hfillWith d _ h
  | fork s a b =>
    cases h
    exact ⟨value s, by simp⟩
  | label l =>
    cases h
    exact hnil rfl
  | condJump cond l =>
    simp only [action] at h
    split at h <;> cases h
    exact hnil rfl
  | assertion kind t =>
    simp only [action] at h
    split at h <;> cases h
    exact hnil rfl
  | _ => cases h

/-- Only instructions that call no helper jump. -/
theorem Inst.target?_of_callsHelper {f : Function} {inst : Inst} (h : inst.callsHelper f = true) :
  inst.target? = none
  := by
  cases inst with
  | jump | shortJump | condJump => cases h
  | _ => rfl

namespace Function

variable {f : Function} {rt : Runtime World} {locals : Nat → Value} {c c' : Config World}
  {d : StorageConfig World} {inst : Inst}

/-- All writes of a step have one value. -/
theorem exists_value_of_writes (f : Function) (rt : Runtime World) (locals : Nat → Value)
    (c : Config World) :
  ∃ v, ∀ w ∈ f.writes rt locals c, w.2 = v
  := by
  have hnil : ∃ v, ∀ w ∈ ([] : List (OperandId × Value)), w.2 = v := ⟨.none, nofun⟩
  unfold writes
  split
  · exact hnil
  · split
    · rename_i haction
      exact Inst.exists_value_of_fill haction
    · split
      · exact ⟨_, fun w hw => congrArg Prod.snd (List.mem_singleton.mp hw)⟩
      · exact hnil
    · split
      · exact ⟨_, fun w hw => congrArg Prod.snd (List.mem_singleton.mp hw)⟩
      · exact hnil
    · exact hnil

/-- The two states are in the same place: they differ in where values are kept only. -/
structure SamePlace (c : Config World) (d : StorageConfig World) : Prop where
  pos : d.pos = c.pos
  result : d.result = c.result
  world : d.world = c.world
  trace : d.trace = c.trace

/-- States in the same place stay in the same place after an action, and the storage is then filled
with what the step writes. -/
theorem SamePlace.perform (h : SamePlace c d) (hfetch : f.fetch c.pos = some inst)
    (hreload : ∀ x, inst = .forceLoad x → d.storage.reload f x = d.storage.fill f (f.writes rt locals c)) :
  Progress.InStep (fun c' d' => SamePlace c' d' ∧ d'.storage = d.storage.fill f (f.writes rt locals c))
    (f.step rt locals c) (d.perform f rt (inst.action f rt (f.read rt c)))
  := by
  rw [step_of_fetch (lt_size_of_fetch hfetch) hfetch]
  obtain ⟨hpos, hresult, hworld, htrace⟩ := h
  have hnext : d.next.pos = c.next.pos := congrArg (· + 1) hpos
  cases haction : inst.action f rt (f.read rt c) with
  | fill writes =>
    refine .running ⟨⟨hnext, hresult, hworld, htrace⟩, ?_⟩
    simp only [Function.writes, hfetch, haction]
  | ask request target =>
    simp only [Function.perform, StorageConfig.perform, hworld]
    cases hserve : rt.serve request c.world with
    | none =>
      rw [hpos, htrace]
      apply Progress.InStep.ended
    | some answer =>
      have htrace' : d.trace ++ [request] = c.trace ++ [request] := congrArg (· ++ [request]) htrace
      refine .running ⟨?_, ?_⟩
      · cases target with
        | operand id => exact ⟨hnext, hresult, rfl, htrace'⟩
        | result => exact ⟨hnext, rfl, rfl, htrace'⟩
        | nowhere => exact ⟨hnext, hresult, rfl, htrace'⟩
      · cases target <;> simp only [Function.writes, hfetch, haction, hserve] <;> rfl
  | reload x =>
    obtain rfl := Inst.eq_forceLoad_of_action haction
    have hreload := hreload x rfl
    simp only [Function.perform, StorageConfig.perform]
    cases f.entryValue locals x with
    | none => exact .running ⟨⟨hnext, hresult, hworld, htrace⟩, hreload⟩
    | some v => exact .running ⟨⟨hnext, hresult, hworld, htrace⟩, hreload⟩
  | goto l =>
    simp only [Function.perform, StorageConfig.perform]
    cases f.labels.at? l with
    | none =>
      rw [hpos, hworld, htrace]
      apply Progress.InStep.ended
    | some pos =>
      refine .running ⟨⟨rfl, hresult, hworld, htrace⟩, ?_⟩
      simp only [Function.writes, hfetch, haction]
      rfl
  | ret v =>
    simp only [Function.perform, StorageConfig.perform, hworld, htrace]
    apply Progress.InStep.ended
  | fail =>
    simp only [Function.perform, StorageConfig.perform, hpos, hworld, htrace]
    apply Progress.InStep.ended

/-! ### Runs side by side -/

/-- A run with registers is where one with cells is.  What is held is in its place, and the array
of locals is as it was on entry as long as there are entry loads to come. -/
structure Shadows (f : Function) (locals : Nat → Value) (c : Config World) (d : StorageConfig World) : Prop
    extends SamePlace c d where
  held : ∀ id home, f.Held c.pos id → f.home? id = some home → d.storage home = c.cells id
  fresh : ∀ p x n, f.fetch p = some (.forceLoad x) → c.pos ≤ p → d.storage (.entry n) = locals n

/-- An entry load is only reached from another one. -/
theorem LoadsFirst.of_flows {p q r : Nat} {x : OperandId} (hfirst : f.LoadsFirst) (wf : f.WellFormed)
    (hflow : f.Flows p q) (hload : f.fetch r = some (.forceLoad x)) (hle : q ≤ r) :
  p < r ∧ ∀ i, f.fetch p = some i → ∃ y, i = .forceLoad y
  := by
  have hlt : p < r := by
    cases hflow with
    | next | skip => omega
    | @jump _ i l _ _ hlabel =>
      have hq := (wf.labels l q).mp hlabel
      have hne : q ≠ r := by
        rintro rfl
        rw [hq] at hload
        cases hload
      cases hfirst q r _ _ (by omega) hq hload rfl
  refine ⟨hlt, fun i hi => ?_⟩
  have hentry := hfirst p r i _ hlt hi hload rfl
  cases i with
  | forceLoad y => exact ⟨y, rfl⟩
  | _ => cases hentry

namespace Shadows

section Single

variable (h : f.Shadows locals c d) (ha : f.Allocated) (hfetch : f.fetch c.pos = some inst)
include h ha hfetch

/-- Both runs read the same values. -/
theorem read_eq {id : OperandId} (hid : id ∈ inst.uses) (hremote : (f.kind id).isRemote = false) :
  d.read f rt id = f.read rt c id
  := by
  have hheld : f.IsValue id → (f.home? id).elim .none d.storage = c.cells id := by
    intro hvalue
    obtain ⟨home, hhome⟩ := hvalue.exists_home
    rw [hhome]
    exact h.held id home (held_of_uses ha.wellFormed ha.opened hfetch hid hvalue) hhome
  unfold StorageConfig.read Function.read
  cases hk : f.kind id with
  | temp n => exact hheld (.inl (isTemp_iff.mpr ⟨n, hk⟩))
  | var n => exact hheld (.inr (isVar_iff.mpr ⟨n, hk⟩))
  | global | contents | function =>
    rw [hk] at hremote
    cases hremote
  | const | cell => rfl
  | retval => exact h.result

/-- An instruction comes to the same with registers, since it reads the same values. -/
theorem action_eq :
  inst.action f rt (d.read f rt) = inst.action f rt (f.read rt c)
  := by
  apply Inst.action_congr
  · intro id hid hremote
    apply h.read_eq ha hfetch hid
    rcases (ha.wellFormed.fits _ _ hfetch).use_temp id hid with htemp | ⟨t, ht⟩
    · obtain ⟨n, hn⟩ := isTemp_iff.mp htemp
      rw [hn]
      rfl
    · exact hremote t ht
  · intro _ _
    rfl

/-- What is held after the step is in its place once what the instruction fills is. -/
theorem held_of_fill (hidle : inst.isIdle f = false) (hstep : f.step rt locals c = .running c') {s : Storage}
    (hs : ∀ id home, f.Held c'.pos id → id ∉ inst.targets f → f.home? id = some home →
      s home = d.storage home) {id : OperandId} {home : Home} (hheld : f.Held c'.pos id)
    (hhome : f.home? id = some home) :
  s.fill f (f.writes rt locals c) home = c'.cells id
  := by
  have hflow := flows_of_step hstep
  have hfst := map_fst_writes hstep hfetch
  obtain ⟨v, hv⟩ := f.exists_value_of_writes rt locals c
  rw [(step_running hstep).1]
  by_cases hid : id ∈ inst.targets f
  · rw [← hfst] at hid
    obtain ⟨w, hw, rfl⟩ := List.mem_map.mp hid
    rw [Storage.fill_of_mem hv ⟨w, hw, hhome⟩]
    rcases c.cells.fill_cases (f.writes rt locals c) w.1 with hmem | ⟨-, hnot⟩
    · exact (hv _ hmem).symm
    · exact absurd hw (hnot w.2)
  · rw [Cells.fill_of_not_mem (hfst ▸ hid), Storage.fill_of_ne, hs id home hheld hid hhome]
    · rcases hheld.back ha.wellFormed ha.isLocal hflow with hbefore | ⟨i, hi, hmem⟩
      · exact h.held id home hbefore hhome
      · rw [hfetch] at hi
        cases hi
        exact absurd hmem hid
    · intro w hw
      apply ha.home?_ne hfetch hidle hflow hheld hid _ hhome
      rw [← hfst]
      exact List.mem_map_of_mem hw

end Single

/-- An entry load puts what the variable holds on entry into its place. -/
theorem reload_eq (h : f.Shadows locals c d) (ha : f.Allocated) {x : OperandId}
    (hfetch : f.fetch c.pos = some (.forceLoad x)) :
  d.storage.reload f x = d.storage.fill f (f.writes rt locals c)
  := by
  obtain ⟨n, hn⟩ := isVar_iff.mp ((ha.wellFormed.fits _ _ hfetch).load_var x rfl).2
  have hwrites : f.writes rt locals c = [(x, locals n)] := by
    simp only [writes, hfetch, Inst.action, entryValue, hn]
  have hentry := h.fresh c.pos x n hfetch (Nat.le_refl _)
  obtain ⟨home, hhome⟩ := IsValue.exists_home (.inr (isVar_iff.mpr ⟨n, hn⟩))
  rw [hwrites, Storage.fill_cons, Storage.keep_of_home? hhome]
  unfold Storage.reload
  rw [hn, hhome]
  cases home with
  | register r =>
    rw [← hentry]
    rfl
  | slot m =>
    rw [kind_of_home?_slot hhome] at hn
    cases hn
  | entry m =>
    rw [kind_of_home?_entry hhome] at hn
    cases hn
    funext other
    by_cases hother : other = .entry n
    · subst hother
      exact hentry.trans (Storage.put_self ..).symm
    · exact (Storage.put_of_ne _ _ hother).symm

/-- The array of locals stays as it was on entry if the step before an entry load leaves it alone. -/
theorem fresh_of_flows (h : f.Shadows locals c d) (ha : f.Allocated) {q : Nat} (hflow : f.Flows c.pos q)
    {s : Storage} (hs : (∀ i, f.fetch c.pos = some i → ∃ y, i = .forceLoad y) →
      ∀ n, s (.entry n) = d.storage (.entry n)) {p n : Nat} {x : OperandId}
    (hload : f.fetch p = some (.forceLoad x)) (hle : q ≤ p) :
  s (.entry n) = locals n
  := by
  obtain ⟨hlt, hbefore⟩ := ha.loadsFirst.of_flows ha.wellFormed hflow hload hle
  rw [hs hbefore]
  exact h.fresh p x n hload (Nat.le_of_lt hlt)

/-- A position that is passed over. -/
theorem skip (h : f.Shadows locals c d) (ha : f.Allocated) (hlt : c.pos < f.size)
    (hfetch : f.fetch c.pos = none) :
  f.Shadows locals c.next d.next
  := by
  have hflow : f.Flows c.pos c.next.pos := .skip hlt hfetch
  refine ⟨⟨congrArg (· + 1) h.pos, h.result, h.world, h.trace⟩, fun id home hheld hhome => ?_, ?_⟩
  · rcases hheld.back ha.wellFormed ha.isLocal hflow with hbefore | ⟨i, hi, -⟩
    · exact h.held id home hbefore hhome
    · rw [hfetch] at hi
      cases hi
  · exact fun p x n hload hle => h.fresh_of_flows ha hflow (fun _ _ => rfl) hload hle

/-- An idle instruction, which moves within one register, changes cells only: storage that goes on
to the next position still shadows them. -/
theorem idle (h : f.Shadows locals c d) (ha : f.Allocated) (hfetch : f.fetch c.pos = some inst)
    (hidle : inst.isIdle f = true) :
  Progress.InStep (f.Shadows locals) (f.step rt locals c) (.running d.next)
  := by
  cases inst with
  | assign t s =>
    simp only [Inst.isIdle, Machine.inSameRegister, Bool.and_eq_true, Bool.or_eq_true, decide_eq_true_eq,
      Option.isSome_iff_exists] at hidle
    obtain ⟨hvalue, ⟨r, hr⟩, hsame⟩ := hidle
    have htemp : f.IsValue t := .inl ((ha.wellFormed.fits _ _ hfetch).def_temp t (by simp [Inst.defs])).2
    have hhome : f.home? t = some (.register r) := home?_eq_register.mpr ⟨htemp, hr⟩
    have hhome' : f.home? s = some (.register r) := home?_eq_register.mpr ⟨hvalue, hsame ▸ hr⟩
    have hread := h.held s _ (held_of_uses ha.wellFormed ha.opened hfetch (by simp [Inst.uses]) hvalue) hhome'
    have hstep : f.step rt locals c = .running { c.next with cells := c.cells.fill [(t, c.cells s)] } := by
      rw [step_of_fetch (lt_size_of_fetch hfetch) hfetch]
      rcases hvalue with hs | hs
      · obtain ⟨n, hn⟩ := isTemp_iff.mp hs
        simp only [Inst.action, Function.perform, Function.read, hn]
      · obtain ⟨n, hn⟩ := isVar_iff.mp hs
        simp only [Inst.action, Function.perform, Function.read, hn]
    have hflow := flows_of_step hstep
    rw [hstep]
    refine .running ⟨⟨congrArg (· + 1) h.pos, h.result, h.world, h.trace⟩, fun id home hheld hhome₁ => ?_, ?_⟩
    · by_cases hid : id = t
      · subst hid
        cases hhome.symm.trans hhome₁
        exact hread.trans (Cells.put_self ..).symm
      · rcases hheld.back ha.wellFormed ha.isLocal hflow with hbefore | ⟨i, hi, hmem⟩
        · exact (h.held id home hbefore hhome₁).trans (Cells.put_of_ne _ _ hid).symm
        · rw [hfetch] at hi
          cases hi
          exact absurd (List.mem_singleton.mp hmem) hid
    · exact fun p x n hload hle => h.fresh_of_flows ha hflow (fun _ _ => rfl) hload hle
  | _ => cases hidle

/-- What is held after a call and is not what the call gives is where it was. -/
theorem afterCall_eq_of_held (ha : f.Allocated) {p q : Nat} (hfetch : f.fetch p = some inst)
    (hcalls : inst.callsHelper f = true) (hflow : f.Flows p q) {id : OperandId} (hheld : f.Held q id)
    (hid : id ∉ inst.targets f) {home : Home} (hhome : f.home? id = some home) (s : Storage)
    (left : Register → Value) :
  s.afterCall f p left home = s home
  := by
  apply Storage.afterCall_eq
  rintro r rfl hcaller
  apply mem_savedAcross (home?_eq_register.mp hhome).2 _ hcaller
  exact ha.spans_of_held hflow hheld hfetch (Inst.target?_of_callsHelper hcalls) hid

/-- An instruction that is not idle does the same on storage as on cells, whatever values are left
in registers. -/
theorem act (h : f.Shadows locals c d) (ha : f.Allocated) (hfetch : f.fetch c.pos = some inst)
    (hidle : inst.isIdle f = false) (left : Register → Value) :
  Progress.InStep (f.Shadows locals) (f.step rt locals c) (d.step f rt left)
  := by
  have hlt := lt_size_of_fetch hfetch
  rw [StorageConfig.step_of_fetch (h.pos ▸ hlt) (h.pos ▸ hfetch) hidle, h.action_eq ha hfetch]
  generalize hstorage :
    (if inst.callsHelper f then d.storage.afterCall f d.pos left else d.storage) = storage
  have hreload : ∀ x, inst = .forceLoad x →
      storage = d.storage ∧ storage.reload f x = storage.fill f (f.writes rt locals c) := by
    rintro x rfl
    subst hstorage
    exact ⟨rfl, h.reload_eq ha hfetch⟩
  have hplace : SamePlace c { d with storage } := ⟨h.pos, h.result, h.world, h.trace⟩
  apply (hplace.perform hfetch fun x hx => (hreload x hx).2).mono
  rintro c' d' hstep ⟨hplace', hfilled⟩
  have hflow := flows_of_step hstep
  refine ⟨hplace', fun id home hheld hhome => ?_, fun p x n hload hle => ?_⟩
  · rw [hfilled]
    apply h.held_of_fill ha hfetch hidle hstep _ hheld hhome
    intro id home hheld hid hhome
    rw [← hstorage, h.pos]
    split
    · rename_i hcalls
      exact afterCall_eq_of_held ha hfetch hcalls hflow hheld hid hhome d.storage left
    · rfl
  · apply h.fresh_of_flows ha hflow _ hload hle
    intro hbefore n
    obtain ⟨y, rfl⟩ := hbefore inst hfetch
    obtain ⟨hsame, hreloaded⟩ := hreload y rfl
    rw [hfilled, ← hreloaded, hsame, Storage.reload_entry]

/-- A step of the run with cells is matched by one of the run with registers, whatever helpers
leave in registers. -/
theorem step (h : f.Shadows locals c d) (ha : f.Allocated) (left : Register → Value) :
  Progress.InStep (f.Shadows locals) (f.step rt locals c) (d.step f rt left)
  := by
  rcases Nat.lt_or_ge c.pos f.size with hlt | hge
  · cases hfetch : f.fetch c.pos with
    | none =>
      rw [step_of_fetch_none hlt hfetch, StorageConfig.step_of_fetch_none (h.pos ▸ hlt) (h.pos ▸ hfetch)]
      exact .running (h.skip ha hlt hfetch)
    | some inst =>
      cases hidle : inst.isIdle f with
      | true =>
        rw [StorageConfig.step_of_isIdle (h.pos ▸ hlt) (h.pos ▸ hfetch) hidle]
        exact h.idle ha hfetch hidle
      | false => exact h.act ha hfetch hidle left
  · rw [step_of_size_le hge, StorageConfig.step_of_size_le (h.pos ▸ hge), h.world, h.trace]
    apply Progress.InStep.ended

end Shadows

/-! ### Whole runs -/

/-- On entry nothing is held, and the array of locals is filled. -/
theorem shadows_start (f : Function) (locals : Nat → Value) (scratch : Cells) (scratch' : Storage)
    (world : World) :
  f.Shadows locals (f.start locals scratch world) (.start locals scratch' world)
  := by
  refine ⟨⟨rfl, rfl, rfl, rfl⟩, ?_, fun _ _ _ _ _ => rfl⟩
  rintro id home (⟨q, -, -, -, hlt, -⟩ | ⟨-, ⟨q, -, hlt⟩, -⟩)
  · cases hlt
  · cases hlt

/-- Runs that start side by side stay side by side, whatever helpers leave in registers. -/
theorem Shadows.run (h : f.Shadows locals c d) (ha : f.Allocated) (left : Nat → Register → Value) (n : Nat) :
  Progress.InStep (f.Shadows locals) (f.run rt locals n c) (d.run f rt left n)
  := by
  induction n with
  | zero => exact .running h
  | succ n ih =>
    unfold StorageConfig.run
    generalize hrun : f.run rt locals n c = progress at ih
    generalize d.run f rt left n = progress' at ih
    cases ih with
    | running h' =>
      have hsucc : f.run rt locals (n + 1) c = _ := Progress.run_succ_eq hrun
      rw [hsucc]
      exact h'.step ha (left n)
    | ended o =>
      have hsucc : f.run rt locals (n + 1) c = .ended o := Progress.run_add_of_ended hrun 1
      rw [hsucc]
      exact .ended o

/-- Two states are in the same place, and the instruction there reads the same values. -/
structure ReadsAlike (f : Function) (rt : Runtime World) (c : Config World) (d : StorageConfig World) : Prop
    extends SamePlace c d where
  reads : ∀ inst id, f.fetch c.pos = some inst → id ∈ inst.uses → (f.kind id).isRemote = false →
    d.read f rt id = f.read rt c id

end Function

/-- Compiled code runs with its registers as it runs with a cell for each temp and variable.  From
the same locals in the same world, whatever is in registers and in the frame on entry and whatever
helpers leave in the registers that are not saved across their calls, both runs take the same
path, read the same values, make the same requests and come to the same outcome. -/
theorem compileIR_refined {f : Bytecode.Function} {o : Options} {g : Function}
    (hcompile : compileIR f o = .ok g) (hempty : f.EmptyAtJumps) (hnest : f.LoopsNest)
    (rt : Runtime World) (locals : Nat → Value) (scratch : Cells) (scratch' : Storage) (world : World)
    (left : Nat → Register → Value) (n : Nat) :
  Progress.InStep (g.ReadsAlike rt) (g.run rt locals n (g.start locals scratch world))
    (StorageConfig.run g rt left n (.start locals scratch' world))
  := by
  have ha := allocated_of_compileIR hcompile hempty hnest
  apply ((g.shadows_start locals scratch scratch' world).run ha left n).mono
  intro c d _ h
  exact ⟨h.toSamePlace, fun inst id hfetch hid => h.read_eq ha hfetch hid⟩

/-- Adds up its parameters. -/
def fiveSum : Bytecode.Function where
  parameterCount := 5
  localVars := ["a", "b", "c", "d", "e"]
  instructions := [
    ⟨.loadLocal, some 0⟩, ⟨.loadLocal, some 1⟩, ⟨.add, none⟩, ⟨.loadLocal, some 2⟩, ⟨.add, none⟩,
    ⟨.loadLocal, some 3⟩, ⟨.add, none⟩, ⟨.loadLocal, some 4⟩, ⟨.add, none⟩, ⟨.ret, none⟩]

/-- A parameter in a register that calls need not leave alone survives the calls before its use. -/
theorem compileIR_refined_fiveSum :
  fiveSum.EmptyAtJumps ∧ fiveSum.LoopsNest ∧ ∃ g trace, compileIR fiveSum {} = .ok g ∧
    (g.operand 11).register = some .r8 ∧
    StorageConfig.run g .arithmetic (fun _ _ => .none) 20 (.start (fun n => .int n) (fun _ => .none) ())
      = .ended (.returned (.int 10) () trace)
  := by
  have he : fiveSum.EmptyAtJumps := by decide +kernel
  have hn : fiveSum.LoopsNest := by decide +kernel
  have hrun : (match compileIR fiveSum {} with
      | .error _ => false
      | .ok g => (g.operand 11).register == some .r8 &&
        match g.run .arithmetic (fun n => .int n) 20 (g.start (fun n => .int n) (fun _ => .none) ()) with
        | .ended (.returned v _ _) => v == .int 10
        | _ => false) = true := by
    simp only [compileIR, Function.allocate, Function.scan, Function.placementOrder_eq_insertionSort]
    decide +kernel
  cases hcompile : compileIR fiveSum {} with
  | error e =>
    rw [hcompile] at hrun
    cases hrun
  | ok g =>
    rw [hcompile] at hrun
    simp only [Bool.and_eq_true, beq_iff_eq] at hrun
    obtain ⟨hr, hret⟩ := hrun
    split at hret
    · rename_i v w trace hv
      cases beq_iff_eq.mp hret
      have h := compileIR_refined hcompile he hn .arithmetic (fun n => .int n) (fun _ => .none)
        (fun _ => .none) () (fun _ _ => .none) 20
      rw [hv] at h
      generalize hrun : StorageConfig.run g _ _ _ _ = progress at h
      cases h
      exact ⟨he, hn, g, trace, rfl, hr, hrun⟩
    · cases hret

end IR

end StackCompiler
