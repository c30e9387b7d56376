import NetLowering.Proofs.Correspondence
import NetLowering.Proofs.Standard

/-! # Blocks in lockstep

Two blocks whose contexts mirror one another run in lockstep: after each converter, the plan nodes that the
one has emitted correspond to those that the other has (`BlockRun.Paired`). So a node that can be lowered in
one run can be lowered in the other, where it emits the plan nodes that correspond, and its outputs go to
the owner that corresponds (`lowerNode_follows`). What corresponds is up to the runs; the one condition is
that the numbers given out along the way do. -/

namespace NetLowering

theorem forall₂_getLast? {α β : Type} {R : α → β → Prop} {xs : List α} {ys : List β}
    (h : List.Forall₂ R xs ys) : Option.Rel R xs.getLast? ys.getLast? := by
  rw [← List.head?_reverse, ← List.head?_reverse]
  have hrev := List.forall₂_reverse_iff.mpr h
  generalize xs.reverse = xs at hrev
  generalize ys.reverse = ys at hrev
  cases hrev with
  | nil => exact .none
  | cons hxy _ => exact .some hxy

namespace BlockRun

variable {k : Correspondence} {c c' : Context} {s s' t : BlockRun} {e e' : Element}
variable {sent sent' : List PlanNode}

/-! ### Steps -/

theorem exists_step {outcome : Outcome}
    (h : (e.converter.action.convert (s.here c e)).2 = .ok outcome) : ∃ s', s.step c e = .ok s' := by
  cases hstep : s.step c e with
  | ok s' => exact ⟨s', rfl⟩
  | error halt =>
      obtain ⟨err, herror, _⟩ := step_eq_error hstep
      rw [h] at herror
      cases herror

/-- Two blocks under way have emitted plan nodes that correspond. -/
structure Paired (k : Correspondence) (c c' : Context) (s s' : BlockRun) (sent sent' : List PlanNode) :
    Prop where
  left : Tracks c s sent
  right : Tracks c' s' sent'
  sent : List.Forall₂ k.Pairs sent sent'
  forwarded : Option.Rel k.Pairs s.forwarded s'.forwarded

theorem Tracks.nextId (hs : Tracks c s sent) :
    s.run.table.nextId = c.table.nextId + sent.length := by
  unfold Ownership.nextId
  rw [hs.emissions, List.length_append, List.length_map]
  omega

theorem nextId_le_step (h : s.step c e = .ok t) : s.run.table.nextId ≤ t.run.table.nextId := by
  obtain ⟨_, _, _, ⟨_, htable, _⟩ | ⟨_, _, htable, _⟩⟩ := step_eq_ok h
  · exact Nat.le_of_eq (congrArg Ownership.nextId htable.symm)
  · rw [htable]
    unfold Ownership.nextId
    simp

theorem nextId_le_foldlM {elements : List Element} (h : elements.foldlM (step c) s = .ok t) :
    s.run.table.nextId ≤ t.run.table.nextId :=
  foldlM_keeps (I := fun u => s.run.table.nextId ≤ u.run.table.nextId)
    (fun _ _ _ _ hu hstep => Nat.le_trans hu (nextId_le_step hstep)) (Nat.le_refl _) h

/-- A step of the one block is followed by a step of the other, if the plan nodes emitted are to
correspond. -/
theorem Paired.step (hs : Paired k c c' s s' sent sent')
    (hconv : Follows (e.converter.action.convert (s.here c e)).2
      (e'.converter.action.convert (s'.here c' e')).2 (Outcome.Matches k))
    (hnew : s.run.table.nextId < t.run.table.nextId →
      ∀ p, k.Pairs (s.planNode c e p) (s'.planNode c' e' (p.renumber k.number)))
    (h : s.step c e = .ok t) :
    ∃ t' sent₁ sent₁', s'.step c' e' = .ok t' ∧ Paired k c c' t t' sent₁ sent₁' := by
  obtain ⟨outcome, hok, hforward, hcases⟩ := step_eq_ok h
  obtain ⟨outcome', hok', hmatch⟩ := hconv outcome hok
  obtain ⟨t', hstep'⟩ := exists_step hok'
  obtain ⟨outcome₁, hok₁, hforward', hcases'⟩ := step_eq_ok hstep'
  rw [hok'] at hok₁
  cases hok₁
  have hforwarded : Option.Rel k.Pairs t.forwarded t'.forwarded := by
    rw [hforward, hforward']
    have hrel := hmatch.forward
    generalize outcome.forward = f at hrel
    generalize outcome'.forward = f' at hrel
    cases hrel with
    | some hpair => exact .some hpair
    | none => exact hs.forwarded
  rcases hcases with ⟨hsilent, htable, hprev⟩ | ⟨p, hemit, htable, hprev⟩
  · rcases hcases' with ⟨_, htable', hprev'⟩ | ⟨p', hemit', _⟩
    · have hsound := (Action.convert_sound _ _).result hok
      have hsound' := (Action.convert_sound _ _).result hok'
      exact ⟨t', sent, sent', hstep', hs.left.silent hsound htable hprev hforward,
        hs.right.silent hsound' htable' hprev' hforward', hs.sent, hforwarded⟩
    · rw [hmatch.emit, hsilent] at hemit'
      cases hemit'
  · rcases hcases' with ⟨hsilent', _⟩ | ⟨p', hemit', htable', hprev'⟩
    · rw [hmatch.emit, hemit] at hsilent'
      cases hsilent'
    · rw [hmatch.emit, hemit] at hemit'
      cases hemit'
      have hlt : s.run.table.nextId < t.run.table.nextId := by
        rw [htable]
        unfold Ownership.nextId
        simp
      refine ⟨t', sent ++ [_], sent' ++ [_], hstep', hs.left.emit htable hprev,
        hs.right.emit htable' hprev', ?_, hforwarded⟩
      exact List.rel_append hs.sent (.cons (hnew hlt p) .nil)

/-! ### Sequences of steps -/

/-- Whatever has been emitted before, the one element follows the other. -/
def Keeps (k : Correspondence) (c c' : Context) (e e' : Element) : Prop :=
  e'.converter.name = e.converter.name ∧ ∀ s s' sent sent', Paired k c c' s s' sent sent' →
    Follows (e.converter.action.convert (s.here c e)).2
      (e'.converter.action.convert (s'.here c' e')).2 (Outcome.Matches k)

/-- The plan nodes with the numbers that two blocks give out before `bound` correspond. -/
def Numbered (k : Correspondence) (c c' : Context) (bound : Nat) : Prop :=
  ∀ j name p, c.table.nextId + j < bound →
    k.Pairs ⟨c.table.nextId + j, c.node.id, name, p⟩
      ⟨c'.table.nextId + j, c'.node.id, name, p.renumber k.number⟩

theorem Paired.foldlM {elements elements' : List Element}
    (hs : Paired k c c' s s' sent sent') (hkeeps : List.Forall₂ (Keeps k c c') elements elements')
    (hnew : Numbered k c c' t.run.table.nextId) (h : elements.foldlM (BlockRun.step c) s = .ok t) :
    ∃ t' sent₁ sent₁', elements'.foldlM (BlockRun.step c') s' = .ok t' ∧
      Paired k c c' t t' sent₁ sent₁' := by
  induction hkeeps generalizing s s' sent sent' with
  | nil =>
      cases h
      exact ⟨s', sent, sent', rfl, hs⟩
  | @cons e e' rest rest' hkeep _ ih =>
      rw [List.foldlM_cons, bind_eq_ok_iff] at h
      obtain ⟨s₁, hstep, hrest⟩ := h
      have hpair : s.run.table.nextId < s₁.run.table.nextId →
          ∀ p, k.Pairs (s.planNode c e p) (s'.planNode c' e' (p.renumber k.number)) := by
        intro hlt p
        have hle := nextId_le_foldlM hrest
        have hlen := hs.sent.length_eq
        unfold planNode
        rw [hs.left.nextId] at hlt ⊢
        rw [hs.right.nextId, hkeep.1, ← hlen]
        exact hnew _ _ p (by omega)
      obtain ⟨s₁', sent₁, sent₁', hstep', hs₁⟩ := hs.step (hkeep.2 _ _ _ _ hs) hpair hstep
      obtain ⟨t', sent₂, sent₂', hrest', ht⟩ := ih hs₁ hrest
      refine ⟨t', sent₂, sent₂', ?_, ht⟩
      rw [List.foldlM_cons, hstep']
      exact hrest'

/-- The outputs go to plan nodes that correspond. -/
theorem Paired.finish {r : Run} (hs : Paired k c c' s s' sent sent') (h : s.finish c.node = .ok r) :
    ∃ r' owner owner', s'.finish c'.node = .ok r' ∧ Lowered c.table c.node r.table sent owner ∧
      Lowered c'.table c'.node r'.table sent' owner' ∧ k.Pairs owner owner' := by
  obtain ⟨owner, hl, hnil⟩ := hs.left.finish h
  have hfinish : ∃ r', s'.finish c'.node = .ok r' := by
    unfold BlockRun.finish at h ⊢
    rw [hs.left.previous] at h
    rw [hs.right.previous]
    have hlast := forall₂_getLast? hs.sent
    generalize sent.getLast? = last at hlast h
    generalize sent'.getLast? = last' at hlast
    cases hlast with
    | some _ => exact ⟨_, rfl⟩
    | none =>
        have hf := hs.forwarded
        generalize s.forwarded = f at hf h
        generalize s'.forwarded = f' at hf
        cases hf with
        | some _ => exact ⟨_, rfl⟩
        | none => cases h
  obtain ⟨r', hfinish⟩ := hfinish
  obtain ⟨owner', hl', hnil'⟩ := hs.right.finish hfinish
  refine ⟨r', owner, owner', hfinish, hl, hl', ?_⟩
  have hlast := forall₂_getLast? hs.sent
  rcases hl.source with hsource | ⟨hempty, _⟩
  · rcases hl'.source with hsource' | ⟨hempty', _⟩
    · rw [hsource, hsource'] at hlast
      cases hlast with
      | some hpair => exact hpair
    · rw [hsource, hempty'] at hlast
      cases hlast
  · have hsent := hs.sent
    rw [hempty, List.forall₂_nil_left_iff] at hsent
    have hf := hs.forwarded
    rw [hnil hempty, hnil' hsent] at hf
    cases hf with
    | some hpair => exact hpair

end BlockRun

/-! ### Nodes -/

section nodes
variable {k : Correspondence} {c c' : Context}

theorem Context.Sees.here (h : c.Sees k c') (hin : ∀ x ∈ c.node.inputs, x ∉ c.node.outputs)
    (hin' : ∀ x ∈ c'.node.inputs, x ∉ c'.node.outputs) {s s' : BlockRun} {sent sent' : List PlanNode}
    (hs : BlockRun.Paired k c c' s s' sent sent') (e e' : Element) :
    (s.here c e).Sees k (s'.here c' e') where
  owners := by
    -- within a block only the outputs of its node change hands
    refine List.forall₂_iff_get.mpr ⟨h.owners.length_eq, fun i hi hi' => ?_⟩
    have howner := h.owners.get hi hi'
    have hx := hs.left.owner (c.node.inputs.get ⟨i, hi⟩)
    have hx' := hs.right.owner (c'.node.inputs.get ⟨i, hi'⟩)
    rw [if_neg (hin _ (List.get_mem _ _))] at hx
    rw [if_neg (hin' _ (List.get_mem _ _))] at hx'
    rw [← hx, ← hx'] at howner
    exact howner
  previous := by
    change Option.Rel k.Pairs s.previous s'.previous
    rw [hs.left.previous, hs.right.previous]
    exact forall₂_getLast? hs.sent

theorem Context.Mirrors.here (h : c.Mirrors k c') (hin : ∀ x ∈ c.node.inputs, x ∉ c.node.outputs)
    (hin' : ∀ x ∈ c'.node.inputs, x ∉ c'.node.outputs) {s s' : BlockRun} {sent sent' : List PlanNode}
    (hs : BlockRun.Paired k c c' s s' sent sent') (e : Element) :
    (s.here c e).Mirrors k (s'.here c' e) :=
  ⟨h.toSees.here hin hin' hs e e, h.tensor, h.options, h.node, h.outputPadding, rfl, rfl⟩

theorem Context.Mirrors.holds (h : c.Mirrors k c') (condition : Condition) :
    condition.holds c' = condition.holds c := by
  cases condition with
  | constant value => rfl
  | outputPadded => unfold Condition.holds; rw [h.outputPadding]
  | inputPaddedOtherwise =>
      have hpadding : c'.node.inputPadding = c.node.inputPadding := by rw [h.node]; rfl
      exact h.inputPaddedOtherwise hpadding

theorem Context.Mirrors.applicable (h : c.Mirrors k c') (block : Block) :
    Block.applicable c' block = Block.applicable c block := by
  induction block with
  | nil => rfl
  | cons cv rest ih =>
      have hable : cv.canConvert c'.node = cv.canConvert c.node := by rw [h.node]; rfl
      unfold Block.applicable
      rw [hable, ih]
      simp only [h.holds]

theorem Registry.StandardForm.isScript {kind : OpKind} {listed : Block}
    (h : Registry.StandardForm kind listed) : ∀ cv ∈ listed, cv.action.isScript = false := by
  cases h with
  | input => decide
  | sole hcv => intro cv hmem; rw [List.mem_singleton.mp hmem]; exact hcv.script
  | chain hc => exact fun cv hmem => (hc.plain cv hmem).1

variable {o : Options} {m m' : Model} {paddings paddings' : Propagation} {r r₁ r' : Run} {n n' : Node}

theorem exists_lowerNode {listed block : Block} {s : BlockRun}
    (hlookup : o.registry.lookup n.kind = .ok listed)
    (happ : Block.applicable (r.context o m paddings n) listed = .ok block)
    (hfold : (Block.elements false block).foldlM (BlockRun.step (r.context o m paddings n))
      { run := r } = .ok s)
    (hfinish : s.finish n = .ok r₁) : r.lowerNode o m paddings n = .ok r₁ := by
  unfold Run.lowerNode
  dsimp only
  rw [bind_eq_ok_iff.mpr ⟨listed, hlookup, happ⟩]
  dsimp only
  exact bind_eq_ok_iff.mpr ⟨s, hfold, hfinish⟩

theorem lowerNode_single {cv : Converter} (hlookup : o.registry.lookup n.kind = .ok [cv])
    (happ : Block.applicable (r.context o m paddings n) [cv] = .ok [cv]) (hcv : cv.adapter = false) :
    r.lowerNode o m paddings n =
      (({ run := r } : BlockRun).step (r.context o m paddings n) ⟨cv, true, true⟩ >>= fun s =>
        s.finish n) := by
  have helements : Block.elements false [cv] = [⟨cv, true, true⟩] := by simp [Block.elements, hcv]
  unfold Run.lowerNode
  dsimp only
  rw [bind_eq_ok_iff.mpr ⟨_, hlookup, happ⟩]
  dsimp only
  rw [helements, List.foldlM_cons]
  cases ({ run := r } : BlockRun).step (r.context o m paddings n) ⟨cv, true, true⟩ <;> rfl

/-- A node that can be lowered in one run can be lowered in another where its context is mirrored. -/
theorem lowerNode_follows (hreg : o.registry = .standard)
    (hmirrors : (r.context o m paddings n).Mirrors k (r'.context o m' paddings' n'))
    (hin : ∀ x ∈ n.inputs, x ∉ n.outputs) (hin' : ∀ x ∈ n'.inputs, x ∉ n'.outputs)
    (hnew : BlockRun.Numbered k (r.context o m paddings n) (r'.context o m' paddings' n')
      r₁.table.nextId)
    (h : r.lowerNode o m paddings n = .ok r₁) :
    ∃ r₁' sent sent' owner owner', r'.lowerNode o m' paddings' n' = .ok r₁' ∧
      Lowered r.table n r₁.table sent owner ∧ Lowered r'.table n' r₁'.table sent' owner' ∧
      List.Forall₂ k.Pairs sent sent' ∧ k.Pairs owner owner' := by
  obtain ⟨listed, block, s, hlookup, happ, hfold, hfinish⟩ := lowerNode_eq_ok h
  have hform : Registry.StandardForm n.kind listed := Registry.lookup_standard (hreg ▸ hlookup)
  have hscript : ∀ cv ∈ block, cv.action.isScript = false := by
    intro cv hcv
    obtain ⟨rfl, _⟩ := applicable_eq_ok happ
    exact hform.isScript cv (List.mem_of_mem_filter hcv)
  have hstart : BlockRun.Paired k (r.context o m paddings n) (r'.context o m' paddings' n')
      { run := r } { run := r' } [] [] :=
    ⟨BlockRun.tracks_start rfl, BlockRun.tracks_start rfl, .nil, .none⟩
  have hkeeps : List.Forall₂ (BlockRun.Keeps k (r.context o m paddings n)
      (r'.context o m' paddings' n')) (Block.elements false block) (Block.elements false block) := by
    refine List.forall₂_same.mpr fun e he => ⟨rfl, fun s s' sent sent' hs => ?_⟩
    have hcv : e.converter ∈ block := elements_converters false block ▸ List.mem_map_of_mem he
    exact Action.convert_follows (hmirrors.here hin hin' hs e) _ (hscript _ hcv)
  have hbound : r₁.table.nextId = s.run.table.nextId := by
    unfold BlockRun.finish at hfinish
    split at hfinish
    · cases hfinish; rfl
    · cases hfinish; rfl
    · cases hfinish
  rw [hbound] at hnew
  obtain ⟨s', sent, sent', hfold', hs⟩ := hstart.foldlM hkeeps hnew hfold
  obtain ⟨r₁', owner, owner', hfinish', hl, hl', howner⟩ := hs.finish hfinish
  refine ⟨r₁', sent, sent', owner, owner', ?_, hl, hl', hs.sent, howner⟩
  have hnode : n' = n.withInputs n'.inputs := hmirrors.node
  have hkind : n'.kind = n.kind := by rw [hnode]; rfl
  exact exists_lowerNode (hkind ▸ hlookup) ((hmirrors.applicable listed).trans happ) hfold' hfinish'

end nodes

end NetLowering
