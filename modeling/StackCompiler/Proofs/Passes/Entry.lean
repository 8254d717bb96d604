import StackCompiler.Proofs.Lowering.Hints
import StackCompiler.Proofs.Passes.Copies

/-!
# Entry loads

Loads put at the top move the code down and change nothing else.  With the loads that the
scan of a function asks for, every variable is filled before it is read, which is all that
is missing for lowered code to be `Checked`.
-/

namespace StackCompiler.IR

namespace Function

variable {f : Function} {x : OperandId} {xs : List OperandId}

/-- The function with loads of variables at the top. -/
def withLoads (f : Function) : List OperandId → Function
  | [] => f
  | x :: xs => (f.withLoads xs).inserted 0 (.forceLoad x)

theorem pending_withLoads (f : Function) (xs : List OperandId) :
  (f.withLoads xs).pending = f.pending
  := by
  induction xs with
  | nil => rfl
  | cons x xs ih => exact ih

/-- Loads at the top leave the table of operands as it is. -/
theorem operands_withLoads (f : Function) (xs : List OperandId) :
  (f.withLoads xs).operands = f.operands
  := by
  induction xs with
  | nil => rfl
  | cons x xs ih => exact ih

theorem operand_withLoads (f : Function) (xs : List OperandId) (id : OperandId) :
  (f.withLoads xs).operand id = f.operand id
  := by
  unfold operand
  rw [operands_withLoads]

theorem kind_withLoads (f : Function) (xs : List OperandId) (id : OperandId) :
  (f.withLoads xs).kind id = f.kind id
  := by
  unfold kind
  rw [operand_withLoads]

/-! ### One load -/

theorem fetch_loaded_zero (hp : f.pending = []) :
  (f.inserted 0 (.forceLoad x)).fetch 0 = some (.forceLoad x)
  := by
  rw [fetch_inserted hp (Nat.zero_le _)]
  rfl

/-- Behind a load put at the top everything has moved by one position. -/
theorem fetch_loaded_succ (hp : f.pending = []) (p : Nat) :
  (f.inserted 0 (.forceLoad x)).fetch (p + 1) = f.fetch p
  := by
  rw [fetch_inserted hp (Nat.zero_le _)]
  rfl

/-- The code of a function with a load at the top. -/
theorem fetch_loaded_cases (hp : f.pending = []) {p : Nat} {i : Inst}
    (h : (f.inserted 0 (.forceLoad x)).fetch p = some i) :
  p = 0 ∧ i = .forceLoad x ∨ ∃ q, p = q + 1 ∧ f.fetch q = some i
  := by
  cases p with
  | zero =>
    rw [fetch_loaded_zero hp] at h
    exact .inl ⟨rfl, (Option.some.inj h).symm⟩
  | succ q =>
    rw [fetch_loaded_succ hp] at h
    exact .inr ⟨q, rfl, h⟩

/-- A definition in code with a load at the top is one of the code before, moved by one position.
-/
theorem defines_loaded (hp : f.pending = []) {p : Nat} {t : OperandId}
    (h : (f.inserted 0 (.forceLoad x)).DefinesAt p t) :
  ∃ q, p = q + 1 ∧ f.DefinesAt q t
  := by
  obtain ⟨i, hi, ht⟩ := h
  rcases fetch_loaded_cases hp hi with ⟨-, rfl⟩ | ⟨q, rfl, hq⟩
  · cases ht
  · exact ⟨q, rfl, i, hq, ht⟩

/-- A read in code with a load at the top is one of the code before, moved by one position. -/
theorem reads_loaded (hp : f.pending = []) {p : Nat} {t : OperandId}
    (h : (f.inserted 0 (.forceLoad x)).ReadsAt p t) :
  ∃ q, p = q + 1 ∧ f.ReadsAt q t
  := by
  obtain ⟨i, hi, ht⟩ := h
  rcases fetch_loaded_cases hp hi with ⟨-, rfl⟩ | ⟨q, rfl, hq⟩
  · cases ht
  · exact ⟨q, rfl, i, hq, ht⟩

/-- A load of a variable put at the top keeps code well formed. -/
theorem wellFormed_loaded (wf : f.WellFormed) (hp : f.pending = []) (hlt : x < f.operands.size)
    (hx : f.isVar x = true) :
  (f.inserted 0 (.forceLoad x)).WellFormed
  := by
  constructor
  · exact wf.numbered.congr rfl fun _ => rfl
  · intro p i hi
    rcases fetch_loaded_cases hp hi with ⟨-, rfl⟩ | ⟨q, -, hq⟩
    · refine ⟨fun _ => nofun, fun _ => nofun, fun _ => nofun, ?_, fun _ _ => nofun⟩
      rintro y hy
      cases hy
      exact ⟨hlt, hx⟩
    · exact (wf.fits q i hq).of_kind (Nat.le_refl _) fun _ _ => rfl
  · exact at?_labels_inserted hp (Nat.zero_le _) (fun _ => nofun) wf.labels
  · intro p q t hdp hdq
    obtain ⟨p', rfl, hdp'⟩ := defines_loaded hp hdp
    obtain ⟨q', rfl, hdq'⟩ := defines_loaded hp hdq
    rw [wf.single p' q' t hdp' hdq']
  · intro p t hr ht
    obtain ⟨p', rfl, hr'⟩ := reads_loaded hp hr
    obtain ⟨q, hq, i, hi, hd⟩ := wf.defined p' t hr' ht
    exact ⟨q + 1, Nat.succ_lt_succ hq, i, (fetch_loaded_succ hp q).trans hi, hd⟩

/-- A load put at the top keeps code local. -/
theorem local_loaded (h : f.Local) (hp : f.pending = []) :
  (f.inserted 0 (.forceLoad x)).Local
  := by
  intro q p t hd hr r l hr₁ hr₂ hl
  obtain ⟨q, rfl, hd'⟩ := defines_loaded hp hd
  obtain ⟨p, rfl, hr'⟩ := reads_loaded hp hr
  rcases fetch_loaded_cases hp hl with ⟨-, hload⟩ | ⟨r, rfl, hl'⟩
  · cases hload
  · exact h q p t hd' hr' r l (Nat.lt_of_succ_lt_succ hr₁) (Nat.le_of_succ_le_succ hr₂) hl'

/-- A load put at the top keeps code linear. -/
theorem linear_loaded {marks : IdSet} (h : f.Linear marks) (hp : f.pending = []) :
  (f.inserted 0 (.forceLoad x)).Linear marks
  := by
  constructor
  · intro p q i t hi hu htemp hlight hq
    rcases fetch_loaded_cases hp hi with ⟨-, rfl⟩ | ⟨p', rfl, hi'⟩
    · cases hu
    · obtain ⟨q', rfl, hq'⟩ := reads_loaded hp hq
      exact Nat.succ_le_succ (h.last p' q' i t hi' hu htemp hlight hq')
  · intro p i hi
    rcases fetch_loaded_cases hp hi with ⟨-, rfl⟩ | ⟨p', -, hi'⟩
    · exact List.nodup_nil
    · exact h.once p' i hi'

/-- A load of a variable put at the top keeps what is known of obsolete operands. -/
theorem Obsolete.loaded {marks : IdSet} (h : f.Obsolete marks f.size) (hp : f.pending = [])
    (hx : f.isVar x = true) :
  (f.inserted 0 (.forceLoad x)).Obsolete marks (f.inserted 0 (.forceLoad x)).size
  := by
  refine ⟨wellFormed_loaded h.wellFormed hp (isVar_lt hx) hx, linear_loaded h.linear hp, h.temp,
    ?_, ?_⟩
  · intro t ht p i hi hu
    refine ⟨lt_size_of_fetch hi, ?_⟩
    rcases fetch_loaded_cases hp hi with ⟨-, rfl⟩ | ⟨q, -, hq⟩
    · cases hu
    · exact (h.reader t ht q i hq hu).2
  · exact fun t _ p ⟨i, hi, _⟩ => lt_size_of_fetch hi

/-- A load put at the top keeps code fresh. -/
theorem Fresh.loaded (h : f.Fresh) (hp : f.pending = []) :
  (f.inserted 0 (.forceLoad x)).Fresh
  := by
  have hchecked : ∀ {p kind t}, f.CheckedBefore p kind t →
      (f.inserted 0 (.forceLoad x)).CheckedBefore (p + 1) kind t :=
    fun ⟨q, hq, ha⟩ => ⟨q + 1, Nat.succ_lt_succ hq, (fetch_loaded_succ hp q).trans ha⟩
  refine ⟨⟨h.known.constant_eq, h.known.const_constant, h.known.var_types, h.known.loaded_var⟩,
    ?_, ?_, ?_⟩
  · intro p i t hi ht
    rcases fetch_loaded_cases hp hi with ⟨-, rfl⟩ | ⟨q, -, hq⟩
    · cases ht
    · exact h.defs q i t hq ht
  · intro p op d l r hi hinline
    rcases fetch_loaded_cases hp hi with ⟨-, hl⟩ | ⟨q, rfl, hq⟩
    · cases hl
    · obtain ⟨kind, hkind, hl, hr⟩ := h.binary q op d l r hq hinline
      exact ⟨kind, hkind, hchecked hl, hchecked hr⟩
  · intro p op d s hi
    rcases fetch_loaded_cases hp hi with ⟨-, hl⟩ | ⟨q, rfl, hq⟩
    · cases hl
    · exact hchecked (h.unary q op d s hq)

/-! ### All loads -/

/-- Loads of variables put at the top keep code well formed. -/
theorem wellFormed_withLoads (wf : f.WellFormed) (hp : f.pending = [])
    (hxs : ∀ x ∈ xs, f.isVar x = true) :
  (f.withLoads xs).WellFormed
  := by
  induction xs with
  | nil => exact wf
  | cons x xs ih =>
    have hx : (f.withLoads xs).isVar x = true := by
      rw [isVar_congr (kind_withLoads f xs x)]
      exact hxs x List.mem_cons_self
    exact wellFormed_loaded (ih fun y hy => hxs y (List.mem_cons_of_mem _ hy))
      ((pending_withLoads f xs).trans hp) (isVar_lt hx) hx

/-- Loads of variables put at the top keep what is known of obsolete operands. -/
theorem Obsolete.withLoads {marks : IdSet} (h : f.Obsolete marks f.size) (hp : f.pending = [])
    (hxs : ∀ x ∈ xs, f.isVar x = true) :
  (f.withLoads xs).Obsolete marks (f.withLoads xs).size
  := by
  induction xs with
  | nil => exact h
  | cons x xs ih =>
    apply (ih fun y hy => hxs y (List.mem_cons_of_mem _ hy)).loaded ((pending_withLoads f xs).trans hp)
    rw [isVar_congr (kind_withLoads f xs x)]
    exact hxs x List.mem_cons_self

/-- Loads put at the top keep code local. -/
theorem local_withLoads (h : f.Local) (hp : f.pending = []) (xs : List OperandId) :
  (f.withLoads xs).Local
  := by
  induction xs with
  | nil => exact h
  | cons x xs ih => exact local_loaded ih ((pending_withLoads f xs).trans hp)

/-- Loads put at the top keep code fresh. -/
theorem Fresh.withLoads (h : f.Fresh) (hp : f.pending = []) (xs : List OperandId) :
  (f.withLoads xs).Fresh
  := by
  induction xs with
  | nil => exact h
  | cons x xs ih => exact ih.loaded ((pending_withLoads f xs).trans hp)

/-- Behind the loads at the top stands the code as it was, moved by their number. -/
theorem fetch_withLoads (hp : f.pending = []) (xs : List OperandId) (p : Nat) :
  (f.withLoads xs).fetch (xs.length + p) = f.fetch p
  := by
  induction xs with
  | nil => rw [List.length_nil, Nat.zero_add, withLoads]
  | cons x xs ih =>
    rw [List.length_cons, Nat.add_right_comm]
    exact (fetch_loaded_succ ((pending_withLoads f xs).trans hp) _).trans ih

/-- The first positions have the loads, in the order of the list. -/
theorem fetch_withLoads_of_lt (hp : f.pending = []) {p : Nat} (hx : xs[p]? = some x) :
  (f.withLoads xs).fetch p = some (.forceLoad x)
  := by
  induction xs generalizing p with
  | nil => cases hx
  | cons y xs ih =>
    have hp' := (pending_withLoads f xs).trans hp
    cases p with
    | zero =>
      cases hx
      exact fetch_loaded_zero hp'
    | succ p => exact (fetch_loaded_succ hp' p).trans (ih hx)

end Function

/-! ### The scan for variables to load -/

namespace EntryScan

variable {f : Function} {scan : EntryScan} {n : Nat} {inst : Inst}

/-- What a scan knows once it has come to a position. -/
structure Sees (f : Function) (scan : EntryScan) (n : Nat) : Prop where
  straight : scan.straight = true → ∀ p i, p < n → f.fetch p = some i → i.IsPlain
  written : ∀ x ∈ scan.written, ∃ q, q < n ∧ f.OpensAt q x
  read : ∀ p x, p < n → f.LoadsAt p x → f.isVar x = true →
    x ∈ scan.needed ∨ ∃ q, q < p ∧ f.OpensAt q x
  loaded : scan.loaded = []

/-- An instruction that is no jump, no label and no load, and after which the scan knows
more of the variables. -/
theorem Sees.step {scan' : EntryScan} (h : scan.Sees f n) (hfetch : f.fetch n = some inst)
    (hstraight : scan'.straight = true → scan.straight = true ∧ inst.IsPlain)
    (hwritten : ∀ x ∈ scan'.written, x ∈ scan.written ∨
      scan.straight = true ∧ ∃ s, inst = .store x s)
    (hneeded : scan.needed ⊆ scan'.needed)
    (hread : ∀ d x, inst = .assign d x → f.isVar x = true → x ∈ scan'.needed ∨ x ∈ scan.written)
    (hloaded : scan'.loaded = []) :
  scan'.Sees f (n + 1)
  := by
  refine ⟨?_, ?_, ?_, hloaded⟩
  · intro hs p i hp hi
    obtain ⟨hs, hplain⟩ := hstraight hs
    rcases Nat.lt_succ_iff_lt_or_eq.mp hp with hlt | rfl
    · exact h.straight hs p i hlt hi
    · rw [hfetch] at hi
      cases hi
      exact hplain
  · intro x hx
    rcases hwritten x hx with hx | ⟨hs, s, rfl⟩
    · obtain ⟨q, hq, hopen⟩ := h.written x hx
      exact ⟨q, Nat.lt_succ_of_lt hq, hopen⟩
    · refine ⟨n, Nat.lt_succ_self n, .inr ⟨s, hfetch⟩, ?_⟩
      intro p i hp hi
      rcases Nat.lt_or_eq_of_le hp with hlt | rfl
      · exact h.straight hs p i hlt hi
      · rw [hfetch] at hi
        cases hi
        exact ⟨rfl, rfl⟩
  · intro p x hp hload hx
    rcases Nat.lt_succ_iff_lt_or_eq.mp hp with hlt | rfl
    · exact (h.read p x hlt hload hx).imp_left fun hmem => hneeded hmem
    · obtain ⟨d, hd⟩ := hload
      rw [hfetch] at hd
      cases hd
      exact (hread d x rfl hx).imp_right (h.written x)

/-- A scan that has come to a position knows the same of the next one once it has visited the
instruction there. -/
theorem Sees.visit (h : scan.Sees f n) (hfetch : f.fetch n = some inst)
    (hload : ∀ x, inst ≠ .forceLoad x) :
  (scan.visit f inst).Sees f (n + 1)
  := by
  have hskip (hplain : inst.IsPlain) (hassign : ∀ d x, inst ≠ .assign d x) : scan.Sees f (n + 1) :=
    h.step hfetch (fun hs => ⟨hs, hplain⟩) (fun _ => .inl) (fun _ => id)
      (fun d x heq => absurd heq (hassign d x)) h.loaded
  have hjump (hassign : ∀ d x, inst ≠ .assign d x) :
      EntryScan.Sees f { scan with straight := false } (n + 1) :=
    h.step hfetch nofun (fun _ => .inl) (fun _ => id)
      (fun d x heq => absurd heq (hassign d x)) h.loaded
  cases inst with
  | forceLoad x => exact absurd rfl (hload x)
  | store dest src =>
    simp only [EntryScan.visit]
    split
    · rename_i hc
      rw [Bool.and_eq_true] at hc
      refine h.step hfetch (fun hs => ⟨hs, rfl, rfl⟩) ?_ (fun _ => id) (fun _ _ => nofun) h.loaded
      intro x hx
      rcases (IdSet.mem_add ..).mp hx with rfl | hx
      · exact .inr ⟨hc.2, src, rfl⟩
      · exact .inl hx
    · exact hskip ⟨rfl, rfl⟩ fun _ _ => nofun
  | assign dest src =>
    simp only [EntryScan.visit]
    split
    · rename_i hc
      rw [Bool.and_eq_true] at hc
      refine h.step hfetch (fun hs => ⟨hs, rfl, rfl⟩) (fun _ => .inl)
        (fun _ hx => (IdSet.mem_add ..).mpr (.inr hx)) ?_ h.loaded
      intro d x heq _
      cases heq
      exact .inl ((IdSet.mem_add ..).mpr (.inl rfl))
    · rename_i hc
      refine h.step hfetch (fun hs => ⟨hs, rfl, rfl⟩) (fun _ => .inl) (fun _ => id) ?_ h.loaded
      intro d x heq hx
      cases heq
      right
      simpa [hx] using hc
  | label | jump | shortJump | condJump => exact hjump fun _ _ => nofun
  | _ => exact hskip ⟨rfl, rfl⟩ fun _ _ => nofun

/-- A scan over instructions knows, at their end, what it should know there. -/
theorem Sees.foldl (insts : List Inst) (h : scan.Sees f n)
    (hinsts : ∀ (j : Nat), insts[j]? = f.fetch (n + j)) (hload : ∀ p x, f.fetch p ≠ some (.forceLoad x)) :
  (insts.foldl (EntryScan.visit f) scan).Sees f (n + insts.length)
  := by
  induction insts generalizing scan n with
  | nil => exact h
  | cons i insts ih =>
    have hfetch : f.fetch n = some i := (hinsts 0).symm
    rw [List.length_cons, ← Nat.add_assoc, Nat.add_right_comm]
    refine ih (h.visit hfetch fun x heq => hload n x (heq ▸ hfetch)) ?_
    intro j
    rw [Nat.add_right_comm, Nat.add_assoc]
    exact hinsts (j + 1)

/-- A scan asks for variables only. -/
theorem isVar_of_mem_needed (insts : List Inst) (h : ∀ x ∈ scan.needed, f.isVar x = true) :
  ∀ x ∈ (insts.foldl (EntryScan.visit f) scan).needed, f.isVar x = true
  := by
  induction insts generalizing scan with
  | nil => exact h
  | cons inst insts ih =>
    apply ih
    intro x hx
    cases inst with
    | assign d y =>
      simp only [visit] at hx
      split at hx
      · rename_i hc
        rw [Bool.and_eq_true] at hc
        rcases (IdSet.mem_add ..).mp hx with rfl | hx
        · exact hc.1
        · exact h x hx
      · exact h x hx
    | store d y =>
      simp only [visit] at hx
      split at hx <;> exact h x hx
    | _ => exact h x hx

end EntryScan

namespace Function

variable {f : Function}

/-- What is loaded on entry are variables. -/
theorem isVar_of_mem_entryLoads {x : OperandId} (h : x ∈ f.entryLoads) :
  f.isVar x = true
  := by
  have hstart : ∀ y ∈ ({} : EntryScan).needed, f.isVar y = true := nofun
  exact EntryScan.isVar_of_mem_needed _ hstart x (List.mem_filter.mp h).1

/-- The variables that are loaded at the top are those that may be read before they are
written. -/
theorem mem_entryLoads_of_loads (hp : f.pending = []) (hload : ∀ p x, f.fetch p ≠ some (.forceLoad x))
    {p : Nat} {x : OperandId} (hx : f.LoadsAt p x) (hvar : f.isVar x = true) :
  x ∈ f.entryLoads ∨ ∃ q, q < p ∧ f.OpensAt q x
  := by
  have hstart : EntryScan.Sees f {} 0 := ⟨fun _ _ _ => nofun, nofun, nofun, rfl⟩
  have h := hstart.foldl f.code.toList ?_ hload
  · rw [← live_of_pending_nil hp] at h
    have hloads : f.entryLoads = ((f.live.map (·.2)).foldl (EntryScan.visit f) {}).needed := by
      unfold entryLoads
      simp [h.loaded]
    rw [hloads]
    apply h.read p x ?_ hx hvar
    obtain ⟨d, hd⟩ := hx
    rw [live_of_pending_nil hp, Nat.zero_add]
    exact lt_size_of_fetch hd
  · intro j
    rw [Nat.zero_add, fetch_of_pending_nil hp, Array.getElem?_toList]

/-- An instruction of code with loads at the top is one of the loads, or one of the code behind
them. -/
theorem fetch_withLoads_cases (hp : f.pending = []) {xs : List OperandId} {p : Nat} {i : Inst}
    (h : (f.withLoads xs).fetch p = some i) :
  (p < xs.length ∧ ∃ x, i = .forceLoad x) ∨ ∃ q, p = xs.length + q ∧ f.fetch q = some i
  := by
  rcases Nat.lt_or_ge p xs.length with hlt | hge
  · rw [fetch_withLoads_of_lt hp (List.getElem?_eq_getElem hlt)] at h
    cases h
    exact .inl ⟨hlt, _, rfl⟩
  · obtain ⟨q, rfl⟩ := Nat.exists_eq_add_of_le hge
    rw [fetch_withLoads hp] at h
    exact .inr ⟨q, rfl, h⟩

/-- With its entry loads a function fills every variable before it reads it. -/
theorem opened_withLoads (hp : f.pending = []) (hload : ∀ p x, f.fetch p ≠ some (.forceLoad x)) :
  (f.withLoads f.entryLoads).Opened
  := by
  intro p x hx hvar
  rw [isVar_congr (kind_withLoads f _ x)] at hvar
  obtain ⟨d, hd⟩ := hx
  rcases fetch_withLoads_cases hp hd with ⟨-, _, hl⟩ | ⟨p', rfl, hd'⟩
  · cases hl
  · rcases mem_entryLoads_of_loads hp hload ⟨d, hd'⟩ hvar with hmem | ⟨q, hq, hopen⟩
    · obtain ⟨q, hq⟩ := List.mem_iff_getElem?.mp hmem
      have hlt := (List.getElem?_eq_some_iff.mp hq).1
      refine ⟨q, Nat.lt_of_lt_of_le hlt (Nat.le_add_right ..), .inl (fetch_withLoads_of_lt hp hq), ?_⟩
      intro r i hr hi
      rcases fetch_withLoads_cases hp hi with ⟨-, y, rfl⟩ | ⟨r', rfl, -⟩
      · exact ⟨rfl, rfl⟩
      · omega
    · refine ⟨f.entryLoads.length + q, by omega, ?_, ?_⟩
      · rw [fetch_withLoads hp]
        exact hopen.fills
      · intro r i hr hi
        rcases fetch_withLoads_cases hp hi with ⟨-, y, rfl⟩ | ⟨r', rfl, hi'⟩
        · exact ⟨rfl, rfl⟩
        · exact hopen.first r' i (by omega) hi'

end Function

namespace State

variable {s : State}

/-- Putting loads at the top one after the other, the last one first, succeeds on code without
marks and gives the function with these loads. -/
theorem foldlM_loadAtEntry (hp : s.func.pending = []) (xs : List OperandId) :
  xs.reverse.foldlM loadAtEntry s = .ok { s with func := s.func.withLoads xs }
  := by
  induction xs with
  | nil => rfl
  | cons x xs ih =>
    rw [List.reverse_cons, List.foldlM_append, ih]
    have hinsert := Function.insert_of_pending_nil ((Function.pending_withLoads s.func xs).trans hp) 0
      (.forceLoad x)
    change loadAtEntry { s with func := s.func.withLoads xs } x >>= pure = _
    unfold loadAtEntry
    simp only [hinsert]
    rfl

/-- The entry loads of a function leave the marks as they are. -/
theorem settled_loadVars (h : s.Settled) :
  loadVars s = .ok { s with func := s.func.withLoads s.func.entryLoads } ∧
    State.Settled { s with func := s.func.withLoads s.func.entryLoads }
  := by
  refine ⟨foldlM_loadAtEntry h.pending _, ?_, ?_⟩
  · exact h.obsolete.withLoads h.pending fun _ => Function.isVar_of_mem_entryLoads
  · exact (Function.pending_withLoads s.func _).trans h.pending

/-- Lowered code is settled as long as nothing is marked obsolete. -/
theorem settled_lower {f : Bytecode.Function} {g : Function} (h : lower f = .ok g) {ctx : Context}
    (hctx : ctx.obsolete = []) :
  State.Settled ⟨g, ctx⟩
  := by
  refine ⟨?_, (Lowering.sound_lower h).1⟩
  rw [hctx]
  exact Function.obsolete_nil (Lowering.wellFormed_lower h) (Lowering.linear_lower h) _

/-- Lowered code with its entry loads has true hints and guarded operations, and is ready
for the passes. -/
theorem loadVars_lower {f : Bytecode.Function} {g : Function} (h : lower f = .ok g)
    (he : f.EmptyAtJumps) {ctx : Context} (hctx : ctx.obsolete = []) :
  loadVars ⟨g, ctx⟩ = .ok ⟨g.withLoads g.entryLoads, ctx⟩ ∧
    (g.withLoads g.entryLoads).Checked ∧
    State.Settled ⟨g.withLoads g.entryLoads, ctx⟩
  := by
  have hp := (Lowering.sound_lower h).1
  obtain ⟨hfresh, hload⟩ := Lowering.fresh_lower h
  obtain ⟨hloads, hsettled⟩ := settled_loadVars (settled_lower h hctx)
  have wf := hsettled.obsolete.wellFormed
  have hfresh := hfresh.withLoads hp g.entryLoads
  exact ⟨hloads, ⟨wf, Function.local_withLoads (Lowering.local_lower h he) hp _, hfresh.hinted wf,
    hfresh.guarded, Function.opened_withLoads hp hload⟩, hsettled⟩

end State

end StackCompiler.IR
