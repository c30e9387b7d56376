import NetLowering.Plan.Run
import NetLowering.Proofs.Conversion
import NetLowering.Proofs.Sequence

/-! # Running a block

What one converter does to the state of a block is said by `BlockRun.step_eq_ok`, and what a whole
block does to the ownership table by `Lowered`: the plan nodes it emits are appended, and the outputs
of its node, and nothing else, go to the last of them, or to the owner of an input if there are none.
This holds of every registry (`lowerNode_lowered`). -/

namespace NetLowering

/-! ### The ownership table -/

namespace Ownership

variable (t : Ownership) (n : Node) (p : PlanNode)

@[simp] theorem emit_emissions : (t.emit n p).emissions = t.emissions ++ [⟨n, p⟩] := rfl

@[simp] theorem emit_nodes : (t.emit n p).nodes = t.nodes ++ [p] := by simp [nodes]

theorem nodes_of_emissions {t t' : Ownership} {n : Node} {sent : List PlanNode}
    (h : t'.emissions = t.emissions ++ sent.map (Emission.mk n)) : t'.nodes = t.nodes ++ sent := by
  unfold nodes
  rw [h, List.map_append, List.map_map]
  exact congrArg _ (List.map_id sent)

theorem owner?_own (x : String) :
    (t.own n p).owner? x = if x ∈ n.outputs then some p else t.owner? x := by
  unfold owner? own
  rw [List.lookup_append]
  have hmap : ∀ ys : List String,
      (ys.map fun value => (value, p)).lookup x = if x ∈ ys then some p else none := by
    intro ys
    induction ys with
    | nil => rfl
    | cons y rest ih =>
        rw [List.map_cons, List.lookup_cons, ih]
        by_cases h : x = y
        · simp [h]
        · rw [beq_false_of_ne h]
          simp [h]
  rw [hmap]
  by_cases h : x ∈ n.outputs
  · simp [h]
  · simp [h]

theorem owner?_emit (x : String) :
    (t.emit n p).owner? x = if x ∈ n.outputs then some p else t.owner? x := owner?_own _ n p x

end Ownership

/-! ### Converters of a block -/

namespace BlockRun

/-- What a converter sees when its turn comes. -/
def here (c : Context) (s : BlockRun) (e : Element) : Context :=
  { c with table := s.run.table, isFirst := e.isFirst, isLast := e.isLast, previous := s.previous }

/-- The plan node that a converter makes of a primitive. -/
def planNode (c : Context) (s : BlockRun) (e : Element) (p : Primitive) : PlanNode :=
  ⟨s.run.table.nextId, c.node.id, e.converter.name, p⟩

variable {c : Context} {s s' : BlockRun} {e : Element}

/-- A converter either emits nothing, or emits one plan node that the block goes on from. -/
theorem step_eq_ok (h : s.step c e = .ok s') :
    ∃ outcome, (e.converter.action.convert (s.here c e)).2 = .ok outcome ∧
      s'.forwarded = (outcome.forward <|> s.forwarded) ∧
      ((outcome.emit = none ∧ s'.run.table = s.run.table ∧ s'.previous = s.previous) ∨
        ∃ p, outcome.emit = some p ∧ s'.run.table = s.run.table.emit c.node (s.planNode c e p) ∧
          s'.previous = some (s.planNode c e p)) := by
  unfold step at h
  rcases hconv : e.converter.action.convert (s.here c e) with ⟨exchanges, result⟩
  rw [here] at hconv
  dsimp only at h ⊢
  rw [hconv] at h
  cases result with
  | error err => cases h
  | ok outcome =>
      refine ⟨outcome, rfl, ?_⟩
      dsimp only at h
      cases hemit : outcome.emit with
      | none =>
          rw [hemit] at h
          cases h
          exact ⟨rfl, .inl ⟨rfl, rfl, rfl⟩⟩
      | some p =>
          rw [hemit] at h
          cases h
          exact ⟨rfl, .inr ⟨p, rfl, rfl, rfl⟩⟩

theorem step_eq_error {halt : Halt} (h : s.step c e = .error halt) :
    ∃ err, (e.converter.action.convert (s.here c e)).2 = .error err ∧ halt.error.cause = err.cause ∧
      halt.error.node? = some (c.node.id, c.node.kind) := by
  unfold step at h
  rcases hconv : e.converter.action.convert (s.here c e) with ⟨exchanges, result⟩
  rw [here] at hconv
  dsimp only at h ⊢
  rw [hconv] at h
  cases result with
  | error err =>
      cases h
      exact ⟨err, rfl, rfl, rfl⟩
  | ok outcome =>
      dsimp only at h
      split at h <;> cases h

/-! ### Blocks under way -/

/-- The block has emitted the plan nodes `sent` so far. -/
structure Tracks (c : Context) (s : BlockRun) (sent : List PlanNode) : Prop where
  emissions : s.run.table.emissions = c.table.emissions ++ sent.map (Emission.mk c.node)
  previous : s.previous = sent.getLast?
  owner : ∀ x, s.run.table.owner? x =
    if x ∈ c.node.outputs then sent.getLast?.or (c.table.owner? x) else c.table.owner? x
  forwarded : sent = [] → ∀ q, s.forwarded = some q → ∃ x ∈ c.node.inputs, c.table.owner? x = some q

theorem tracks_start {r : Run} (h : c.table = r.table) : Tracks c { run := r } [] := by
  refine ⟨?_, rfl, ?_, ?_⟩
  · simp [h]
  · simp [h]
  · intro _ q hq; cases hq

theorem Tracks.owner_of_nil (hs : Tracks c s []) (x : String) :
    s.run.table.owner? x = c.table.owner? x := by
  rw [hs.owner x, List.getLast?_nil, Option.none_or, ite_self]

/-- Values keep their owner within a block, unless they are outputs of its node. -/
theorem Tracks.owner_isSome {sent : List PlanNode} (hs : Tracks c s sent) {x : String} {q : PlanNode}
    (hq : c.table.owner? x = some q) : ∃ q', s.run.table.owner? x = some q' := by
  rw [hs.owner x, hq]
  cases sent.getLast? with
  | none => simp
  | some p => by_cases hx : x ∈ c.node.outputs <;> simp [hx]

theorem Tracks.silent {sent : List PlanNode} (hs : Tracks c s sent) {outcome : Outcome}
    (hsound : outcome.Sound (s.here c e)) (htable : s'.run.table = s.run.table)
    (hprev : s'.previous = s.previous) (hforward : s'.forwarded = (outcome.forward <|> s.forwarded)) :
    Tracks c s' sent := by
  refine ⟨htable ▸ hs.emissions, hprev.trans hs.previous, htable ▸ hs.owner, ?_⟩
  rintro rfl q hq
  rw [hforward] at hq
  cases hf : outcome.forward with
  | none => rw [hf] at hq; exact hs.forwarded rfl q hq
  | some p =>
      rw [hf] at hq
      cases hq
      obtain ⟨index, hindex⟩ := hsound.forward q hf
      obtain ⟨i, x, _, hi, howner⟩ := (Context.producer_ends _ index).result hindex
      exact ⟨x, List.mem_of_getElem? hi, (hs.owner_of_nil x).symm.trans howner⟩

theorem Tracks.emit {sent : List PlanNode} (hs : Tracks c s sent) {p : PlanNode}
    (htable : s'.run.table = s.run.table.emit c.node p) (hprev : s'.previous = some p) :
    Tracks c s' (sent ++ [p]) := by
  refine ⟨?_, ?_, ?_, ?_⟩
  · rw [htable, Ownership.emit_emissions, hs.emissions, List.append_assoc, List.map_append]
    rfl
  · rw [hprev, List.getLast?_concat]
  · intro x
    rw [htable, Ownership.owner?_emit, hs.owner x, List.getLast?_concat, Option.some_or]
    split <;> rfl
  · intro h; simp at h

theorem Tracks.step {sent : List PlanNode} (hs : Tracks c s sent) (h : s.step c e = .ok s') :
    Tracks c s' sent ∨ ∃ p, Tracks c s' (sent ++ [p]) := by
  obtain ⟨outcome, hconv, hforward, ⟨_, htable, hprev⟩ | ⟨p, _, htable, hprev⟩⟩ := step_eq_ok h
  · exact .inl (hs.silent ((Action.convert_sound _ _).result hconv) htable hprev hforward)
  · exact .inr ⟨_, hs.emit htable hprev⟩

theorem tracks_foldlM {elements : List Element} (hs : ∃ sent, Tracks c s sent)
    (h : elements.foldlM (BlockRun.step c) s = .ok s') : ∃ sent, Tracks c s' sent := by
  refine foldlM_keeps (I := fun s => ∃ sent, Tracks c s sent) ?_ hs h
  rintro e _ s s' ⟨sent, hs⟩ hstep
  rcases hs.step hstep with hs' | ⟨p, hs'⟩
  · exact ⟨sent, hs'⟩
  · exact ⟨_, hs'⟩

end BlockRun

/-! ### Nodes -/

/-- What lowering a node does to the ownership table: the plan nodes `sent` are appended as its
emissions, and its outputs go to `owner`, which is the last of them, or owns an input of the node if
there are none. -/
structure Lowered (t : Ownership) (n : Node) (t' : Ownership) (sent : List PlanNode)
    (owner : PlanNode) : Prop where
  emissions : t'.emissions = t.emissions ++ sent.map (Emission.mk n)
  source : sent.getLast? = some owner ∨ sent = [] ∧ ∃ x ∈ n.inputs, t.owner? x = some owner
  owner_eq : ∀ x, t'.owner? x = if x ∈ n.outputs then some owner else t.owner? x

theorem Lowered.nodes {t t' : Ownership} {n : Node} {sent : List PlanNode} {owner : PlanNode}
    (h : Lowered t n t' sent owner) : t'.nodes = t.nodes ++ sent :=
  Ownership.nodes_of_emissions h.emissions

theorem Lowered.nextId {t t' : Ownership} {n : Node} {sent : List PlanNode} {owner : PlanNode}
    (h : Lowered t n t' sent owner) : t'.nextId = t.nextId + sent.length := by
  unfold Ownership.nextId
  rw [h.emissions, List.length_append, List.length_map]
  omega

variable {o : Options} {m : Model} {paddings : Propagation} {r r' : Run} {n : Node}

theorem lowerNode_eq_ok (h : r.lowerNode o m paddings n = .ok r') :
    ∃ listed block s, o.registry.lookup n.kind = .ok listed ∧
      Block.applicable (r.context o m paddings n) listed = .ok block ∧
      (Block.elements false block).foldlM (BlockRun.step (r.context o m paddings n)) { run := r } =
        .ok s ∧ s.finish n = .ok r' := by
  unfold Run.lowerNode at h
  dsimp only at h
  cases hblock : o.registry.lookup n.kind >>= Block.applicable (r.context o m paddings n) with
  | error e => rw [hblock] at h; cases h
  | ok block =>
      rw [hblock] at h
      obtain ⟨listed, hlookup, happ⟩ := bind_eq_ok_iff.mp hblock
      obtain ⟨s, hfold, hfinish⟩ := bind_eq_ok_iff.mp h
      exact ⟨listed, block, s, hlookup, happ, hfold, hfinish⟩

theorem BlockRun.Tracks.finish {c : Context} {s : BlockRun} {sent : List PlanNode}
    (hs : Tracks c s sent) (h : s.finish c.node = .ok r') :
    ∃ owner, Lowered c.table c.node r'.table sent owner ∧ (sent = [] → s.forwarded = some owner) := by
  unfold BlockRun.finish at h
  rw [hs.previous] at h
  cases hlast : sent.getLast? with
  | some p =>
      rw [hlast] at h
      cases h
      refine ⟨p, ⟨hs.emissions, .inl hlast, fun x => ?_⟩, fun hnil => ?_⟩
      · rw [hs.owner x, hlast, Option.some_or]
      · rw [hnil] at hlast; cases hlast
  | none =>
      have hnil := List.getLast?_eq_none_iff.mp hlast
      rw [hlast] at h
      cases hf : s.forwarded with
      | none => rw [hf] at h; cases h
      | some q =>
          rw [hf] at h
          cases h
          refine ⟨q, ⟨hs.emissions, .inr ⟨hnil, hs.forwarded hnil q hf⟩, fun x => ?_⟩, fun _ => rfl⟩
          rw [Ownership.owner?_own, hs.owner x, hlast, Option.none_or, ite_self]

theorem lowerNode_lowered (h : r.lowerNode o m paddings n = .ok r') :
    ∃ sent owner, Lowered r.table n r'.table sent owner := by
  obtain ⟨_, _, s, _, _, hfold, hfinish⟩ := lowerNode_eq_ok h
  obtain ⟨sent, hs⟩ := BlockRun.tracks_foldlM ⟨[], BlockRun.tracks_start rfl⟩ hfold
  obtain ⟨owner, hlowered, _⟩ := hs.finish hfinish
  exact ⟨sent, owner, hlowered⟩

end NetLowering
