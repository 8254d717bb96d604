import StackCompiler.Proofs.Typing.Preservation

/-!
# Changes keep operations guarded and variables filled

An assertion goes only when it is proved or when no operation depends on it, so an
operation that stays still finds operands that it is made for (`Edit.guarded`).  What fills a
variable before it is read stays in the code that opens the function (`Edit.opened`).
-/

namespace StackCompiler.IR

open Bytecode (Constant)

/-- What a binary operation wants of its operands is their type. -/
theorem BinOp.ne_notZero_of_wants {op : BinOp} {kind : AssertKind} (h : kind ∈ op.wants) :
  kind ≠ .notZero
  := by
  rintro rfl
  cases op <;> simp [wants] at h

theorem UnOp.demands_ne_notZero (op : UnOp) :
  op.demands ≠ .notZero
  := by
  cases op <;> decide

/-- A proved assertion is met by everything that has the types that prove it. -/
theorem AssertKind.admits_of_holds {kind : AssertKind} {o : Operand} {v : Value}
    (hkind : kind ≠ .notZero) (h : kind.holds o = true) :
  o.types ≠ .empty ∧ (v.HasType o.types → kind.admits v = true)
  := by
  cases kind with
  | int =>
    have ho : o.types = .ints := by simpa [holds, Operand.isInt] using h
    rw [ho, Value.hasType_ints_iff]
    refine ⟨by decide, ?_⟩
    rintro ⟨n, rfl⟩
    rfl
  | bool =>
    have ho : o.types = .bools := by simpa [holds, Operand.isBool] using h
    rw [ho, Value.hasType_bools_iff]
    refine ⟨by decide, ?_⟩
    rintro ⟨b, rfl⟩
    rfl
  | notZero => exact absurd rfl hkind

namespace Function

variable {f f' : Function} {pos : Nat} {t : OperandId} {kind : AssertKind}

/-! ### Guards -/

/-- What is secured of one operand before a change is secured of another after it. -/
def Secures (f f' : Function) (p p' : Nat) (t t' : OperandId) : Prop :=
  ∀ kind, kind ≠ .notZero → f.Secured p kind t → f'.Secured p' kind t'

/-- What is secured of an operand is secured of another after a change, if no more values may come
to be there and what assertions tell stays secured. -/
theorem secures_of_fetch {p p' : Nat} {t' : OperandId} (hmay : ∀ v, f'.May t' v → f.May t v)
    (hassert : ∀ q kind, kind ≠ .notZero → q < p → f.fetch q = some (.assertion kind t) → f'.Secured p' kind t') :
  f.Secures f' p p' t t'
  := by
  rintro kind hkind (h | ⟨q, hq, hfetch⟩)
  · exact .inl fun v hv => h v (hmay v hv)
  · exact hassert q kind hkind hq hfetch

/-- Operations stay guarded when they were there before over operands that are secured as
before. -/
theorem Guarded.change (hg : f.Guarded)
    (hbinary : ∀ p op d l r, f'.fetch p = some (.binary op d l r) → op.isInline = true →
      (∃ q l' r', f.fetch q = some (.binary op d l' r') ∧ f.Secures f' q p l' l ∧
        f.Secures f' q p r' r) ∨
      ∃ kind ∈ op.wants, f'.Secured p kind l ∧ f'.Secured p kind r)
    (hunary : ∀ p op d s, f'.fetch p = some (.unary op d s) →
      ∃ q s', f.fetch q = some (.unary op d s') ∧ f.Secures f' q p s' s) :
  f'.Guarded
  := by
  constructor
  · intro p op d l r hp hop
    rcases hbinary p op d l r hp hop with ⟨q, l', r', hq, hl, hr⟩ | h
    · obtain ⟨kind, hkind, hsl, hsr⟩ := hg.binary q op d l' r' hq hop
      have hne := BinOp.ne_notZero_of_wants hkind
      exact ⟨kind, hkind, hl kind hne hsl, hr kind hne hsr⟩
    · exact h
  · intro p op d s hp
    obtain ⟨q, s', hq, hs⟩ := hunary p op d s hp
    exact hs op.demands op.demands_ne_notZero (hg.unary q op d s' hq)

/-- Operations stay guarded when they and all assertions stay where they are. -/
theorem Guarded.of_fetch (hg : f.Guarded) (wf : f.WellFormed)
    (hmay : ∀ id v, id < f.operands.size → f'.May id v → f.May id v)
    (hview : ∀ p i', f'.fetch p = some i' → f.fetch p = some i' ∨
      (∀ op d l r, i' ≠ .binary op d l r) ∧ ∀ op d s, i' ≠ .unary op d s)
    (hassert : ∀ p kind t, f.fetch p = some (.assertion kind t) →
      f'.fetch p = some (.assertion kind t)) :
  f'.Guarded
  := by
  have hsecure : ∀ p i, f.fetch p = some i → ∀ t ∈ i.uses, f.Secures f' p p t t := by
    intro p i hi t ht
    apply secures_of_fetch
    · exact fun v => hmay t v ((wf.fits p i hi).use_lt t ht)
    · exact fun q kind _ hq hfetch => .inr ⟨q, hq, hassert q kind t hfetch⟩
  apply hg.change
  · intro p op d l r hp _
    rcases hview p _ hp with hi | ⟨hne, -⟩
    · exact .inl ⟨p, l, r, hi, hsecure p _ hi l (by simp [Inst.uses]),
        hsecure p _ hi r (by simp [Inst.uses])⟩
    · exact absurd rfl (hne op d l r)
  · intro p op d s hp
    rcases hview p _ hp with hi | ⟨-, hne⟩
    · exact ⟨p, s, hi, hsecure p _ hi s (by simp [Inst.uses])⟩
    · exact absurd rfl (hne op d s)

/-- Types that prove what an inline form is made for. -/
theorem Hinted.admits_of_specialized? (hf : f.Hinted) (wf : f.WellFormed) {op fast : BinOp}
    {dest lhs rhs : OperandId} (hfetch : f.fetch pos = some (.binary op dest lhs rhs))
    (hknown : op.specialized? (f.operand lhs) (f.operand rhs) = some fast) :
  ∃ kind ∈ fast.wants, (∀ v, f.May lhs v → kind.admits v = true) ∧
    ∀ v, f.May rhs v → kind.admits v = true
  := by
  obtain ⟨hl, hr⟩ := hf.hasType_of_specialized? wf hfetch hknown
  obtain ⟨types, hlt, hrt, h⟩ := BinOp.specialized?_eq_some hknown
  rw [hlt] at hl
  rw [hrt] at hr
  have hint : types = .ints → (∀ v, f.May lhs v → AssertKind.admits .int v = true) ∧
      ∀ v, f.May rhs v → AssertKind.admits .int v = true := by
    rintro rfl
    constructor
    · intro v hv
      obtain ⟨n, rfl⟩ := Value.hasType_ints_iff.mp (hl v hv)
      rfl
    · intro v hv
      obtain ⟨n, rfl⟩ := Value.hasType_ints_iff.mp (hr v hv)
      rfl
  rcases h with ⟨-, rfl, htypes⟩ | ⟨-, rfl, htypes | rfl⟩
  · exact ⟨.int, by simp [BinOp.wants], hint htypes⟩
  · exact ⟨.int, by simp [BinOp.wants], hint htypes⟩
  · refine ⟨.bool, by simp [BinOp.wants], ?_, ?_⟩
    · intro v hv
      obtain ⟨b, rfl⟩ := Value.hasType_bools_iff.mp (hl v hv)
      rfl
    · intro v hv
      obtain ⟨b, rfl⟩ := Value.hasType_bools_iff.mp (hr v hv)
      rfl

/-- Code stays guarded when an operation is specialized: the hints tell that the operands are of
the types that the fast form wants. -/
theorem Guarded.specialized (hg : f.Guarded) (wf : f.WellFormed) (hf : f.Hinted) {op fast : BinOp}
    {dest lhs rhs : OperandId} (hfetch : f.fetch pos = some (.binary op dest lhs rhs))
    (hknown : op.specialized? (f.operand lhs) (f.operand rhs) = some fast) :
  (f.specialized pos fast dest lhs rhs).Guarded
  := by
  have hmay : ∀ id v, (f.specialized pos fast dest lhs rhs).May id v → f.May id v :=
    fun id v => hf.may_specialized wf hfetch hknown
  have hsecure : ∀ p t, f.Secures (f.specialized pos fast dest lhs rhs) p p t t := by
    intro p t
    apply secures_of_fetch (hmay t)
    intro q kind _ hq hassert
    refine .inr ⟨q, hq, fetch_kept (fetch_specialized hfetch) hfetch hassert ?_⟩
    rintro ⟨⟩
  apply hg.change
  · intro p op' d l r hp _
    rw [fetch_specialized hfetch] at hp
    split at hp
    · cases hp
      obtain ⟨kind, hkind, hl, hr⟩ := hf.admits_of_specialized? wf hfetch hknown
      exact .inr ⟨kind, hkind, .inl fun v hv => hl v (hmay _ v hv), .inl fun v hv => hr v (hmay _ v hv)⟩
    · exact .inl ⟨p, l, r, hp, hsecure p l, hsecure p r⟩
  · intro p op' d s hp
    rw [fetch_specialized hfetch] at hp
    split at hp
    · cases hp
    · exact ⟨p, s, hp, hsecure p s⟩

/-- Code stays guarded when a copy is read at its source: what is asserted of the copy is asserted
of the source then. -/
theorem Guarded.renamed (hg : f.Guarded) (wf : f.WellFormed) {s : OperandId}
    (hfetch : f.fetch pos = some (.assign t s)) (hs : f.isTemp s = true) :
  (f.renamed t s).Guarded
  := by
  have hsecure : ∀ p u, f.Secures (f.renamed t s) p p u (substitute t s u) := by
    intro p u
    apply secures_of_fetch
    · intro v hv
      have hv' := may_renamed wf hfetch hs hv
      unfold substitute at hv'
      split at hv'
      · rename_i hut
        -- What flows into the temp flows into its copy.
        rw [hut]
        exact .flow ⟨pos, hfetch⟩ ((gives_assign_temp hs).mpr ⟨rfl, hv'⟩)
      · exact hv'
    · intro q kind _ hq hassert
      exact .inr ⟨q, hq, fetch_renamed_eq_some.mpr ⟨_, hassert, rfl⟩⟩
  apply hg.change
  · intro p op d l r hp _
    obtain ⟨i, hi, hmap⟩ := fetch_renamed_eq_some.mp hp
    cases i <;> cases hmap
    exact .inl ⟨p, _, _, hi, hsecure p _, hsecure p _⟩
  · intro p op d u hp
    obtain ⟨i, hi, hmap⟩ := fetch_renamed_eq_some.mp hp
    cases i <;> cases hmap
    exact ⟨p, _, hi, hsecure p _⟩

/-- Code stays guarded when an assertion goes that is proved, or about a temp that nothing uses.
-/
theorem Guarded.remove_assertion (hg : f.Guarded) (wf : f.WellFormed) (hf : f.Hinted)
    (hfetch : f.fetch pos = some (.assertion kind t))
    (hneedless : f.Idle t ∨ kind.holds (f.operand t) = true) :
  (f.remove pos).Guarded
  := by
  have hmay : ∀ id v, id < f.operands.size → (f.remove pos).May id v → f.May id v :=
    fun id v => (Edit.eraseAssertion hfetch hneedless).may wf hf
  have hsecure : ∀ p i, f.fetch p = some i → (∀ k u, i ≠ .assertion k u) → (∀ d u, i ≠ .assign d u) →
      ∀ u ∈ i.uses, f.Secures (f.remove pos) p p u u := by
    intro p i hi hassertion hassign u hu
    have hlt := (wf.fits p i hi).use_lt u hu
    apply secures_of_fetch (fun v => hmay u v hlt)
    intro q k hk hq hassert
    by_cases hqpos : q = pos
    · -- The assertion that goes was about this operand.
      subst hqpos
      rw [hfetch] at hassert
      cases hassert
      rcases hneedless with hidle | hholds
      · rcases hidle p i hi hu with ⟨k, rfl⟩ | ⟨d, rfl⟩
        · exact absurd rfl (hassertion k t)
        · exact absurd rfl (hassign d t)
      · left
        intro v hv
        obtain ⟨hne, hadmits⟩ := AssertKind.admits_of_holds (v := v) hk hholds
        exact hadmits (hf.hasType hlt (hmay t v hlt hv) hne)
    · exact .inr ⟨q, hq, by rw [fetch_remove, if_neg hqpos, hassert]⟩
  apply hg.change
  · intro p op d l r hp _
    have hi := (fetch_of_fetch_remove hp).1
    have h := hsecure p _ hi (by rintro _ _ ⟨⟩) (by rintro _ _ ⟨⟩)
    exact .inl ⟨p, l, r, hi, h l (by simp [Inst.uses]), h r (by simp [Inst.uses])⟩
  · intro p op d s hp
    have hi := (fetch_of_fetch_remove hp).1
    have h := hsecure p _ hi (by rintro _ _ ⟨⟩) (by rintro _ _ ⟨⟩)
    exact ⟨p, s, hi, h s (by simp [Inst.uses])⟩

section Compacts

variable {φ : Nat → Nat}

/-- Compaction keeps what is secured of operands. -/
theorem Compacts.secured_iff (h : f.Compacts f' φ) {p : Nat} {i : Inst} (hi : f.fetch p = some i) :
  f'.Secured (φ p) kind t ↔ f.Secured p kind t
  := by
  unfold Secured
  simp only [h.may_iff]
  apply or_congr_right
  constructor
  · rintro ⟨q', hq', hfetch⟩
    obtain ⟨q, rfl, hq⟩ := h.exists_of_fetch hfetch
    exact ⟨q, (h.lt_iff hq hi).mp hq', hq⟩
  · rintro ⟨q, hq, hfetch⟩
    exact ⟨φ q, (h.lt_iff hfetch hi).mpr hq, (h.keep q _ hfetch).2⟩

/-- Compacted code is guarded if the code before compaction is. -/
theorem Compacts.guarded_iff (h : f.Compacts f' φ) :
  f'.Guarded ↔ f.Guarded
  := by
  constructor
  · intro hg
    apply hg.change
    · intro p op d l r hp _
      exact .inl ⟨φ p, l, r, (h.keep p _ hp).2, fun _ _ => (h.secured_iff hp).mp,
        fun _ _ => (h.secured_iff hp).mp⟩
    · intro p op d s hp
      exact ⟨φ p, s, (h.keep p _ hp).2, fun _ _ => (h.secured_iff hp).mp⟩
  · intro hg
    apply hg.change
    · intro p' op d l r hp' _
      obtain ⟨p, rfl, hp⟩ := h.exists_of_fetch hp'
      exact .inl ⟨p, l, r, hp, fun _ _ => (h.secured_iff hp).mpr, fun _ _ => (h.secured_iff hp).mpr⟩
    · intro p' op d s hp'
      obtain ⟨p, rfl, hp⟩ := h.exists_of_fetch hp'
      exact ⟨p, s, hp, fun _ _ => (h.secured_iff hp).mpr⟩

end Compacts

/-- Code stays guarded when a stored value is forwarded to the load that follows. -/
theorem Guarded.forwarded (hg : f.Guarded) (wf : f.WellFormed) (hp : f.pending = [])
    {location src dest : OperandId} (hpair : f.storeThenLoad? pos = some (location, src, dest)) :
  (f.forwarded pos location src dest).Guarded
  := by
  obtain ⟨φ, hφ⟩ := compacts_roomToForward wf hp hpair
  obtain ⟨hr₀, hr₁, hr₂⟩ := fetch_roomToForward hp hpair
  apply (hφ.guarded_iff.mp hg).of_fetch (wellFormed_roomToForward wf hp hpair)
  · intro id v hid hv
    rw [← hφ.may_iff]
    have hid' : id < f.operands.size := hid
    have := may_forwarded wf hp hpair hv
    rwa [original, if_pos hid'] at this
  · intro p i' hi'
    rw [fetch_forwarded wf hp hpair] at hi'
    split at hi'
    · cases hi'
      exact .inr ⟨by rintro _ _ _ _ ⟨⟩, by rintro _ _ _ ⟨⟩⟩
    · split at hi'
      · cases hi'
        exact .inr ⟨by rintro _ _ _ _ ⟨⟩, by rintro _ _ _ ⟨⟩⟩
      · split at hi'
        · cases hi'
          exact .inr ⟨by rintro _ _ _ _ ⟨⟩, by rintro _ _ _ ⟨⟩⟩
        · exact .inl hi'
  · intro p kind t hassert
    have hne : ∀ q, (f.roomToForward pos location).fetch q ≠ some (.assertion kind t) → p ≠ q := by
      rintro q hq rfl
      exact hq hassert
    rw [fetch_forwarded wf hp hpair, if_neg (hne pos (by simp [hr₀])),
      if_neg (hne (pos + 1) (by simp [hr₁])), if_neg (hne (pos + 2) (by simp [hr₂])), hassert]

/-- Another instruction in the place of one that asserts nothing needs no guard. -/
theorem Guarded.of_replaced (hg : f.Guarded) (wf : f.WellFormed)
    (hmay : ∀ id v, id < f.operands.size → f'.May id v → f.May id v) {old new : Inst}
    (hfetch : f.fetch pos = some old) (hview : ∀ p, f'.fetch p = if p = pos then some new else f.fetch p)
    (hold : ∀ kind t, old ≠ .assertion kind t) (hbinary : ∀ op d l r, new ≠ .binary op d l r)
    (hunary : ∀ op d s, new ≠ .unary op d s) :
  f'.Guarded
  := by
  apply hg.of_fetch wf hmay
  · intro p i' hi'
    rw [hview] at hi'
    split at hi'
    · cases hi'
      exact .inr ⟨hbinary, hunary⟩
    · exact .inl hi'
  · exact fun p kind t hassert => fetch_kept hview hfetch hassert (hold kind t).symm

/-- An instruction goes that asserts nothing. -/
theorem Guarded.remove (hg : f.Guarded) (wf : f.WellFormed) {pos : Nat} {old : Inst}
    (hmay : ∀ id v, id < f.operands.size → (f.remove pos).May id v → f.May id v)
    (hfetch : f.fetch pos = some old) (hold : ∀ kind t, old ≠ .assertion kind t) :
  (f.remove pos).Guarded
  := by
  apply hg.of_fetch wf hmay
  · exact fun p i' hi' => .inl (fetch_of_fetch_remove hi').1
  · exact fun p kind t hassert => fetch_kept (fetch_remove pos) hfetch hassert (hold kind t).symm

end Function

open IR.Function

/-- Every change of a well-formed function with true hints keeps its operations guarded. -/
theorem Edit.guarded {f f' : Function} (h : Edit f f') (wf : f.WellFormed) (hf : f.Hinted)
    (hg : f.Guarded) :
  f'.Guarded
  := by
  have hmay : ∀ id v, id < f.operands.size → f'.May id v → f.May id v := fun id v => h.may wf hf
  cases h with
  | annotate same =>
    apply hg.of_fetch wf hmay
    · intro p i' hi'
      rw [same.fetch_eq] at hi'
      exact .inl hi'
    · intro p kind t hassert
      rw [same.fetch_eq, hassert]
  | fold hfetch hresult =>
    refine hg.of_replaced wf hmay hfetch (fetch_foldedTo hfetch) ?_ (fun _ _ _ _ => nofun)
      fun _ _ _ => nofun
    rintro kind t rfl
    cases hresult
  | specialize hfetch hknown => exact hg.specialized wf hf hfetch hknown
  | rename hfetch htemp => exact hg.renamed wf hfetch htemp
  | erase hfetch hpure =>
    refine hg.remove wf hmay hfetch ?_
    rintro kind t rfl
    cases hpure
  | eraseAssertion hfetch hneedless => exact hg.remove_assertion wf hf hfetch hneedless
  | narrow hfetch =>
    rcases hfetch with hfetch | hfetch
    all_goals
      exact hg.of_replaced wf hmay hfetch (fetch_replace hfetch _) (fun _ _ => nofun)
        (fun _ _ _ _ => nofun) fun _ _ _ => nofun
  | eraseStore hfetch => exact hg.remove wf hmay hfetch fun _ _ => nofun
  | forward hpending hpair => exact hg.forwarded wf hpending hpair
  | compact =>
    obtain ⟨φ, hφ⟩ := compacts_compact wf.labels
    exact hφ.guarded_iff.mpr hg

/-! ### Variables -/

namespace Function

variable {f f' : Function}

theorem InPlace.isVar_of_isVar (h : f.InPlace f') {x : OperandId} (hx : f'.isVar x = true) :
  f.isVar x = true
  := by
  rcases Nat.lt_or_ge x f.operands.size with hlt | hge
  · rwa [← h.isVar_eq hlt]
  · rw [h.new_isVar x hge] at hx
    cases hx

/-- Variables stay filled when what is read was read before and what fills them stays. -/
theorem Opened.of_fetch (ho : f.Opened) (h : f.InPlace f')
    (hloads : ∀ p x, f'.LoadsAt p x → f.isVar x = true → f.LoadsAt p x)
    (hplain : ∀ p i', f'.fetch p = some i' → i'.IsPlain ∨
      ∃ i, f.fetch p = some i ∧ (i.IsPlain → i'.IsPlain))
    (hforce : ∀ p x, f.fetch p = some (.forceLoad x) → f'.fetch p = some (.forceLoad x))
    (hstore : ∀ p q x s, f'.LoadsAt p x → q < p → f.fetch q = some (.store x s) →
      ∃ s', f'.fetch q = some (.store x s')) :
  f'.Opened
  := by
  intro p x hp hx
  have hx' := h.isVar_of_isVar hx
  obtain ⟨q, hq, hfills, hfirst⟩ := ho p x (hloads p x hp hx') hx'
  refine ⟨q, hq, ?_, ?_⟩
  · rcases hfills with hf | ⟨s, hs⟩
    · exact .inl (hforce q x hf)
    · exact .inr (hstore p q x s hp hq hs)
  · intro r i' hr hi'
    rcases hplain r i' hi' with hplain | ⟨i, hi, hplain⟩
    · exact hplain
    · exact hplain (hfirst r i hr hi)

section Compacts

variable {φ : Nat → Nat}

/-- Compaction keeps what is filled in the code that opens a function. -/
theorem Compacts.opensAt_iff (h : f.Compacts f' φ) {q : Nat} {i : Inst} (hi : f.fetch q = some i)
    (x : OperandId) :
  f'.OpensAt (φ q) x ↔ f.OpensAt q x
  := by
  have hfetch : f'.fetch (φ q) = f.fetch q := by rw [(h.keep q i hi).2, hi]
  constructor
  · rintro ⟨hfills, hfirst⟩
    rw [hfetch] at hfills
    refine ⟨hfills, ?_⟩
    intro p j hp hj
    refine hfirst (φ p) j ?_ (h.keep p j hj).2
    exact h.mono hp (Nat.le_of_lt (lt_size_of_fetch hi))
  · rintro ⟨hfills, hfirst⟩
    rw [← hfetch] at hfills
    refine ⟨hfills, ?_⟩
    intro p' j hp' hj
    obtain ⟨p, rfl, hp⟩ := h.exists_of_fetch hj
    refine hfirst p j ?_ hp
    rcases Nat.lt_or_ge q p with hlt | hge
    · exact absurd ((h.lt_iff hi hp).mpr hlt) (Nat.not_lt_of_le hp')
    · exact hge

/-- Compacted code is opened if the code before compaction is. -/
theorem Compacts.opened_iff (h : f.Compacts f' φ) :
  f'.Opened ↔ f.Opened
  := by
  constructor
  · rintro ho p x ⟨d, hd⟩ hx
    rw [← isVar_congr (h.kind_eq x)] at hx
    obtain ⟨q', hq', hopens⟩ := ho (φ p) x ⟨d, (h.keep p _ hd).2⟩ hx
    obtain ⟨j, hj⟩ := hopens.exists_fetch
    obtain ⟨q, rfl, hq⟩ := h.exists_of_fetch hj
    exact ⟨q, (h.lt_iff hq hd).mp hq', (h.opensAt_iff hq x).mp hopens⟩
  · rintro ho p' x ⟨d, hd⟩ hx
    rw [isVar_congr (h.kind_eq x)] at hx
    obtain ⟨p, rfl, hp⟩ := h.exists_of_fetch hd
    obtain ⟨q, hq, hopens⟩ := ho p x ⟨d, hp⟩ hx
    obtain ⟨j, hj⟩ := hopens.exists_fetch
    exact ⟨φ q, (h.lt_iff hj hp).mpr hq, (h.opensAt_iff hj x).mpr hopens⟩

end Compacts

/-- Code stays opened when a copy is read at its source. -/
theorem Opened.renamed (ho : f.Opened) {s : OperandId} (hs : f.isTemp s = true) :
  (f.renamed t s).Opened
  := by
  apply ho.of_fetch (f.inPlace_renamed t s)
  · rintro p x ⟨d, hd⟩ hx
    obtain ⟨i, hi, hmap⟩ := fetch_renamed_eq_some.mp hd
    cases i with
    | assign d' u =>
      cases hmap
      unfold substitute at hx
      split at hx
      · rw [isVar_eq_false hs] at hx
        cases hx
      · rename_i hut
        have hu : substitute t s u = u := if_neg hut
        rw [hu]
        exact ⟨d, hi⟩
    | _ => cases hmap
  · intro p i' hi'
    obtain ⟨i, hi, rfl⟩ := fetch_renamed_eq_some.mp hi'
    refine .inr ⟨i, hi, fun h => ?_⟩
    cases i <;> exact h
  · exact fun p x hx => fetch_renamed_eq_some.mpr ⟨_, hx, rfl⟩
  · exact fun p q x u _ _ hu => ⟨_, fetch_renamed_eq_some.mpr ⟨_, hu, rfl⟩⟩

/-- Forwarding moves the store by one position. -/
theorem Opened.forwarded (ho : f.Opened) (wf : f.WellFormed) (hp : f.pending = [])
    {location src dest : OperandId} (hpair : f.storeThenLoad? pos = some (location, src, dest)) :
  (f.forwarded pos location src dest).Opened
  := by
  have h := inPlace_forwarded wf hp hpair
  have hview : ∀ p, (f.forwarded pos location src dest).fetch p = _ := fetch_forwarded wf hp hpair
  obtain ⟨φ, hφ⟩ := compacts_roomToForward wf hp hpair
  obtain ⟨hr₀, hr₁, hr₂⟩ := fetch_roomToForward hp hpair
  have hroom := hφ.opened_iff.mp ho
  have hnew := isVar_eq_false (isTemp_of_new wf hp hpair (.inr rfl)).2
  -- The stretch that is filled goes on over the new instructions.
  have hfirst : ∀ q, (∀ p i, p ≤ q → (f.roomToForward pos location).fetch p = some i → i.IsPlain) →
      ∀ p i, p ≤ q ∨ p = pos + 1 →
        (f.forwarded pos location src dest).fetch p = some i → i.IsPlain := by
    intro q hplain p i hp' hi
    rw [hview] at hi
    split at hi
    · cases hi
      exact ⟨rfl, rfl⟩
    · split at hi
      · cases hi
        exact ⟨rfl, rfl⟩
      · split at hi
        · cases hi
          exact ⟨rfl, rfl⟩
        · exact hplain p i (hp'.resolve_right ‹_›) hi
  rintro p x ⟨d, hd⟩ hx
  have hx' := h.isVar_of_isVar hx
  have hload : (f.roomToForward pos location).LoadsAt p x ∧ p ≠ pos + 1 := by
    rw [hview] at hd
    split at hd
    · cases hd
    · split at hd
      · cases hd
      · split at hd
        · cases hd
          rw [hnew] at hx
          cases hx
        · exact ⟨⟨d, hd⟩, ‹_›⟩
  obtain ⟨q, hq, hfills, hplain⟩ := hroom p x hload.1 hx'
  by_cases hqpos : q = pos
  · subst hqpos
    have hxl : x = location := by
      rcases hfills with hf | ⟨s, hs⟩
      · rw [hr₀] at hf
        cases hf
      · rw [hr₀] at hs
        cases hs
        rfl
    refine ⟨q + 1, by omega, .inr ⟨f.operands.size, ?_⟩, ?_⟩
    · rw [hview, if_neg (by omega), if_pos rfl, hxl]
    · intro r i hr
      exact hfirst q hplain r i (by omega)
  · refine ⟨q, hq, ?_, ?_⟩
    · have hkeep : (f.forwarded pos location src dest).fetch q
          = (f.roomToForward pos location).fetch q := by
        rw [hview, if_neg hqpos]
        split
        · rename_i h₁
          rw [h₁, hr₁] at hfills
          simp at hfills
        · split
          · rename_i h₂
            rw [h₂, hr₂] at hfills
            simp at hfills
          · rfl
      rw [hkeep]
      exact hfills
    · intro r i hr
      exact hfirst q hplain r i (.inl hr)

/-- Another instruction in the place of one that fills no variable loads from none. -/
theorem Opened.of_replaced (ho : f.Opened) (hplace : f.InPlace f') {old new : Inst}
    (hfetch : f.fetch pos = some old) (hview : ∀ p, f'.fetch p = if p = pos then some new else f.fetch p)
    (hplain : old.IsPlain → new.IsPlain) (hload : ∀ d x, new = .assign d x → f.isVar x = false)
    (hforce : ∀ x, old ≠ .forceLoad x) (hstore : ∀ x s, old ≠ .store x s) :
  f'.Opened
  := by
  apply ho.of_fetch hplace
  · rintro p x ⟨d, hd⟩ hx
    rw [hview] at hd
    split at hd
    · rw [hload d x (Option.some.inj hd)] at hx
      cases hx
    · exact ⟨d, hd⟩
  · intro p i' hi'
    rw [hview] at hi'
    split at hi'
    · rename_i hp
      cases hi'
      exact .inr ⟨old, (congrArg _ hp).trans hfetch, hplain⟩
    · exact .inr ⟨i', hi', id⟩
  · exact fun p x hx => fetch_kept hview hfetch hx (hforce x).symm
  · exact fun p q x s _ _ hs => ⟨s, fetch_kept hview hfetch hs (hstore x s).symm⟩

/-- An instruction goes that fills no variable, or only one that nothing after it loads from. -/
theorem Opened.remove (ho : f.Opened) {pos : Nat} {old : Inst} (hfetch : f.fetch pos = some old)
    (hlabel : ∀ l, old ≠ .label l) (hforce : ∀ x, old ≠ .forceLoad x)
    (hstore : ∀ x s p, old = .store x s → (f.remove pos).LoadsAt p x → p ≤ pos) :
  (f.remove pos).Opened
  := by
  apply ho.of_fetch (inPlace_remove hfetch hlabel)
  · rintro p x ⟨d, hd⟩ -
    exact ⟨d, (fetch_of_fetch_remove hd).1⟩
  · exact fun p i' hi' => .inr ⟨i', (fetch_of_fetch_remove hi').1, id⟩
  · exact fun p x hx => fetch_kept (fetch_remove pos) hfetch hx (hforce x).symm
  · intro p q x s hp hq hs
    refine ⟨s, ?_⟩
    rw [fetch_remove, if_neg ?_, hs]
    rintro rfl
    rw [hfetch] at hs
    exact absurd hq (Nat.not_lt_of_le (hstore x s p (Option.some.inj hs) hp))

end Function

/-- Every change keeps variables filled before they are read. -/
theorem Edit.opened {f f' : Function} (h : Edit f f') (wf : f.WellFormed) (ho : f.Opened) :
  f'.Opened
  := by
  cases h with
  | annotate same =>
    apply ho.of_fetch same.inPlace
    · rintro p x ⟨d, hd⟩ -
      exact ⟨d, (same.fetch_eq p).symm.trans hd⟩
    · exact fun p i' hi' => .inr ⟨i', (same.fetch_eq p).symm.trans hi', id⟩
    · exact fun p x hx => (same.fetch_eq p).trans hx
    · exact fun p q x s _ _ hs => ⟨s, (same.fetch_eq q).trans hs⟩
  | @fold pos inst dest sources value hfetch hresult =>
    obtain ⟨-, -, hlabel⟩ := defs_of_foldInst? hresult
    refine ho.of_replaced (inPlace_foldedTo hfetch hlabel) hfetch (fetch_foldedTo hfetch)
      (fun _ => ⟨rfl, rfl⟩) ?_ ?_ ?_
    · intro d x hx
      cases hx
      exact isVar_of_size_le (Nat.le_refl _)
    · rintro x rfl
      cases hresult
    · rintro x s rfl
      cases hresult
  | specialize hfetch =>
    exact ho.of_replaced (inPlace_specialized hfetch) hfetch (fetch_specialized hfetch)
      (fun _ => ⟨rfl, rfl⟩) nofun nofun nofun
  | rename hfetch htemp => exact ho.renamed htemp
  | @erase pos inst hfetch hpure =>
    refine ho.remove hfetch ?_ ?_ ?_
    · rintro l rfl
      cases hpure
    · rintro x rfl
      cases hpure
    · rintro x s p rfl
      cases hpure
  | eraseAssertion hfetch => exact ho.remove hfetch (fun _ => nofun) (fun _ => nofun) nofun
  | @narrow pos src kept dropped hfetch =>
    obtain ⟨a, b, hold, -, hplace⟩ := exists_fork hfetch
    refine ho.of_replaced hplace hold (fetch_replace hold _) (fun _ => ⟨rfl, rfl⟩) ?_ nofun nofun
    intro d x hx
    cases hx
    rcases (wf.fits pos _ hold).use_temp src (List.mem_singleton.mpr rfl) with hs | ⟨d, hd⟩
    · exact isVar_eq_false hs
    · cases hd
  | eraseStore hfetch _ hunread =>
    refine ho.remove hfetch (fun _ => nofun) (fun _ => nofun) ?_
    rintro x s p hx ⟨d, hd⟩
    cases hx
    exact hunread.load_le p ⟨d, (fetch_of_fetch_remove hd).1⟩
  | forward hpending hpair => exact ho.forwarded wf hpending hpair
  | compact =>
    obtain ⟨φ, hφ⟩ := compacts_compact wf.labels
    exact hφ.opened_iff.mpr ho

/-- Code whose hints are true and whose operations find what they need. -/
structure Function.Checked (f : Function) : Prop where
  wellFormed : f.WellFormed
  isLocal : f.Local
  hinted : f.Hinted
  guarded : f.Guarded
  opened : f.Opened

/-- Every change leaves hints true and operations guarded. -/
theorem Edit.checked {f f' : Function} (h : Edit f f') (hf : f.Checked) :
  f'.Checked
  := ⟨h.wellFormed hf.wellFormed, (h.keepsOrder hf.wellFormed).isLocal hf.isLocal,
    h.hinted hf.wellFormed hf.hinted,
    h.guarded hf.wellFormed hf.hinted hf.guarded, h.opened hf.wellFormed hf.opened⟩

end StackCompiler.IR
