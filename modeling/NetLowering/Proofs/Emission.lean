import NetLowering.Proofs.Numbering
import NetLowering.Proofs.Standard

/-! # How plan nodes come about

With the standard registry a node that emits anything emits one plan node for each converter of its block that
applies, in their order (`lowerNode_emits`). `BlockRun.Emits` keeps for each of them its origin, the state of the
block it was made in and what its converter came to there, so that anything a converter makes sure of can be said
of the plan nodes of a finished plan (`Planned.turn`, `Turn.origin`). -/

namespace NetLowering

/-! ### Blocks -/

namespace BlockRun

/-- The plan node that an element of a block made, after the block had emitted `sent`, in the state `s`. -/
structure Origin (c : Context) (sent : List PlanNode) (e : Element) (s : BlockRun) (q : PlanNode) :
    Prop where
  tracks : Tracks c s sent
  ordered : s.Ordered
  node : q = s.planNode c e q.primitive
  standard : e.converter.action.isScript = false
  converted : (e.converter.action.convert (s.here c e)).2 = .ok (.ofPrimitive q.primitive)

/-- The plan nodes that the elements of a block made one after the other, one each, after the block had
emitted `sent`. -/
inductive Emits (c : Context) : List PlanNode → List Element → List PlanNode → Prop
  | nil {sent : List PlanNode} : Emits c sent [] []
  | cons {sent more : List PlanNode} {e : Element} {s : BlockRun} {q : PlanNode} {elements : List Element} :
      Origin c sent e s q → Emits c (sent ++ [q]) elements more → Emits c sent (e :: elements) (q :: more)

variable {c : Context} {s s' : BlockRun} {e : Element} {sent more : List PlanNode} {q : PlanNode}
variable {elements : List Element}

namespace Origin

theorem makes (h : Origin c sent e s q) : e.converter.action.Makes (s.here c e) q.primitive := by
  rcases (Action.convert_yields _ _ h.standard).result h.converted with ⟨p, hmade, hp⟩ | ⟨_, _, hforward, _⟩
  · cases hmade
    exact hp
  · cases hforward

theorem built {x : Except Error Primitive} (h : Origin c sent e s q)
    (hx : (e.converter.action.convert (s.here c e)).2 = Outcome.ofPrimitive <$> x) : x = .ok q.primitive := by
  have hconverted := hx.symm.trans h.converted
  cases x with
  | error err => cases hconverted
  | ok p => cases hconverted; rfl

theorem previous (h : Origin c sent e s q) : (s.here c e).previous = sent.getLast? := h.tracks.previous

theorem converter (h : Origin c sent e s q) : q.converter = e.converter.name := by
  rw [h.node]
  rfl

theorem border (h : Origin c sent e s q) : q.primitive.output.padding = e.border c := by
  obtain ⟨_, _, hmade⟩ := h.makes
  exact hmade.border.trans (border_here _)

/-- What a converter is given for an input is a plan node with a smaller number. -/
theorem source (h : Origin c sent e s q) {index : Int} {given : Operand}
    (hgiven : (s.here c e).input index = .ok given) :
    ∃ k ∈ c.table.nodes ++ sent, k.id < q.id ∧ given = k.asOperand := by
  have hid : q.id = s.run.table.nextId := by rw [h.node]; rfl
  rw [hid, ← Ownership.nodes_of_emissions h.tracks.emissions]
  rcases (Context.input_ends _ index).result hgiven with ⟨_, k, hk, rfl⟩ | ⟨_, k, hk, rfl⟩
  · have hmem := h.ordered.previous k hk
    exact ⟨k, hmem, h.ordered.table.id_lt hmem, rfl⟩
  · have hmem := h.ordered.mem_of_producer hk
    exact ⟨k, hmem, h.ordered.table.id_lt hmem, rfl⟩

/-- At the start of a block input 0 is the owner of the first input of the node. -/
theorem first (h : Origin c [] e s q) {given : Operand} (hgiven : (s.here c e).input 0 = .ok given) :
    ∃ x k, c.node.inputs.head? = some x ∧ c.table.owner? x = some k ∧ given = k.asOperand := by
  rcases (Context.input_ends _ 0).result hgiven with ⟨_, k, hk, _⟩ | ⟨_, k, hk, rfl⟩
  · rw [h.previous] at hk
    cases hk
  · obtain ⟨i, x, hi, hx, howner⟩ := (Context.producer_ends _ 0).result hk
    cases hi
    refine ⟨x, k, ?_, (h.tracks.owner_of_nil x).symm.trans howner, rfl⟩
    rw [List.head?_eq_getElem?]
    exact hx

theorem later {p : PlanNode} (h : Origin c (sent ++ [p]) e s q) :
    (s.here c e).input 0 = .ok p.asOperand := by
  rw [Context.input_eq, if_pos rfl, h.previous, List.getLast?_concat]

end Origin

/-- A standard converter emits one plan node, or leaves the block as it was. -/
theorem Tracks.step_origin (hs : Tracks c s sent) (ho : s.Ordered)
    (hscript : e.converter.action.isScript = false) (h : s.step c e = .ok s') :
    (∃ q, Origin c sent e s q ∧ Tracks c s' (sent ++ [q])) ∨
      (e.converter.action.mayForward = true ∧ Tracks c s' sent) := by
  obtain ⟨outcome, hconv, hforward, hcases⟩ := step_eq_ok h
  rcases (Action.convert_yields _ _ hscript).result hconv with ⟨p, rfl, _⟩ | ⟨hmay, q, rfl, _⟩
  · rcases hcases with ⟨hemit, _⟩ | ⟨p', hemit, htable, hprev⟩
    · cases hemit
    · cases hemit
      exact .inl ⟨_, ⟨hs, ho, rfl, hscript, hconv⟩, hs.emit htable hprev⟩
  · rcases hcases with ⟨_, htable, hprev⟩ | ⟨p', hemit, _⟩
    · exact .inr ⟨hmay, hs.silent ((Action.convert_sound _ _).result hconv) htable hprev hforward⟩
    · cases hemit

theorem emits_of_plain (hs : Tracks c s sent) (ho : s.Ordered)
    (hplain : ∀ e ∈ elements, e.converter.action.isScript = false ∧ e.converter.action.mayForward = false)
    (h : elements.foldlM (BlockRun.step c) s = .ok s') :
    ∃ more, Emits c sent elements more ∧ Tracks c s' (sent ++ more) := by
  induction elements generalizing s sent with
  | nil =>
      cases h
      exact ⟨[], .nil, by rwa [List.append_nil]⟩
  | cons e rest ih =>
      rw [List.foldlM_cons, bind_eq_ok_iff] at h
      obtain ⟨s₁, hstep, hrest⟩ := h
      obtain ⟨hscript, hforward⟩ := hplain e List.mem_cons_self
      rcases hs.step_origin ho hscript hstep with ⟨q, hq, hs₁⟩ | ⟨hmay, _⟩
      · obtain ⟨more, hmore, hs'⟩ :=
          ih hs₁ (ho.step hstep) (fun e' he' => hplain e' (List.mem_cons_of_mem _ he')) hrest
        refine ⟨q :: more, .cons hq hmore, ?_⟩
        rwa [List.append_assoc] at hs'
      · rw [hforward] at hmay
        cases hmay

theorem Emits.origins (h : Emits c sent elements more) :
    List.Forall₂ (fun e q => ∃ sent s, Origin c sent e s q) elements more := by
  induction h with
  | nil => exact .nil
  | cons hq _ ih => exact .cons ⟨_, _, hq⟩ ih

/-- Some of the plan nodes were made by the first elements, and those after them by the elements left then. -/
theorem Emits.split {mid : List PlanNode} (h : Emits c sent elements (mid ++ more)) :
    ∃ pre post, elements = pre ++ post ∧ Emits c sent pre mid ∧ Emits c (sent ++ mid) post more := by
  induction mid generalizing sent elements with
  | nil => exact ⟨[], elements, rfl, .nil, by rwa [List.append_nil]⟩
  | cons p rest ih =>
      cases h with
      | @cons _ _ e _ _ elements hp hrest =>
          obtain ⟨pre, post, rfl, hpre, hpost⟩ := ih hrest
          rw [List.append_assoc] at hpost
          exact ⟨e :: pre, post, rfl, .cons hp hpre, hpost⟩

theorem Emits.append {others : List Element} (h : Emits c sent (elements ++ others) more) :
    ∃ first second, more = first ++ second ∧ Emits c sent elements first ∧
      Emits c (sent ++ first) others second := by
  induction elements generalizing sent more with
  | nil => exact ⟨[], more, rfl, .nil, by rwa [List.append_nil]⟩
  | cons e rest ih =>
      cases h with
      | @cons _ _ _ _ q _ hq hrest =>
          obtain ⟨first, second, rfl, hfirst, hsecond⟩ := ih hrest
          rw [List.append_assoc] at hsecond
          exact ⟨q :: first, second, rfl, .cons hq hfirst, hsecond⟩

/-- A plan node that was emitted right after another was made by the next element. -/
theorem Emits.neighbours {mid : List PlanNode} {p q : PlanNode}
    (h : Emits c sent elements (mid ++ p :: q :: more)) :
    ∃ pre e e' post s s', elements = pre ++ e :: e' :: post ∧ Origin c (sent ++ mid) e s p ∧
      Origin c (sent ++ mid ++ [p]) e' s' q := by
  obtain ⟨pre, post, rfl, _, hpost⟩ := h.split
  cases hpost with
  | cons hp hrest =>
      cases hrest with
      | cons hq _ => exact ⟨pre, _, _, _, _, _, rfl, hp, hq⟩

end BlockRun

/-! ### Nodes -/

section nodes
variable {c : Context} {s s' : BlockRun} {listed applied : Block}

/-- A standard block emits a plan node for each of its elements, or nothing where a converter may leave its
work to an owner. -/
theorem standard_emits (hform : Registry.StandardForm c.node.kind listed)
    (happ : Block.applicable c listed = .ok applied) (hs : BlockRun.Tracks c s []) (ho : s.Ordered)
    (h : (Block.elements false applied).foldlM (BlockRun.step c) s = .ok s') :
    ∃ sent, BlockRun.Tracks c s' sent ∧
      (sent = [] ∧ (∃ cv ∈ applied, cv.action.mayForward = true) ∨
        BlockRun.Emits c [] (Block.elements false applied) sent) := by
  -- converters that cannot come to nothing emit all
  have hregular (hb : Block.Regular c applied) : ∃ sent, BlockRun.Tracks c s' sent ∧
      (sent = [] ∧ (∃ cv ∈ applied, cv.action.mayForward = true) ∨
        BlockRun.Emits c [] (Block.elements false applied) sent) := by
    have hplain : ∀ e ∈ Block.elements false applied,
        e.converter.action.isScript = false ∧ e.converter.action.mayForward = false := by
      intro e he
      refine hb.plain _ ?_
      rw [← elements_converters false applied]
      exact List.mem_map_of_mem he
    obtain ⟨sent, hemits, hs'⟩ := BlockRun.emits_of_plain hs ho hplain h
    exact ⟨sent, hs', .inr hemits⟩
  generalize hkind : c.node.kind = kind at hform
  cases hform with
  | input => exact hregular (regular_input hkind happ)
  | chain hchain =>
      subst hkind
      exact hregular (regular_chain hchain happ)
  | @sole _ cv hcv =>
      obtain ⟨rfl, hrequired⟩ := applicable_eq_ok happ
      rw [List.filter_singleton, hrequired _ (List.mem_singleton_self _) hcv.required, cond_true] at h ⊢
      rw [Block.elements, List.foldlM_cons, bind_eq_ok_iff] at h
      obtain ⟨s₁, hstep, h⟩ := h
      cases h
      rcases hs.step_origin ho hcv.script hstep with ⟨q, hq, hs'⟩ | ⟨hmay, hs'⟩
      · exact ⟨[q], hs', .inr (.cons hq .nil)⟩
      · exact ⟨[], hs', .inl ⟨rfl, cv, List.mem_singleton_self _, hmay⟩⟩

variable {o : Options} {m : Model} {paddings : Propagation} {r r' : Run} {n : Node}

theorem lowerNode_emits (hreg : o.registry = .standard) (hr : r.table.Ordered)
    (h : r.lowerNode o m paddings n = .ok r') :
    ∃ applied sent owner,
      Block.applicable (r.context o m paddings n) (Registry.standardBlock n.kind) = .ok applied ∧
      Lowered r.table n r'.table sent owner ∧
      (sent = [] ∧ (∃ cv ∈ applied, cv.action.mayForward = true) ∨
        BlockRun.Emits (r.context o m paddings n) [] (Block.elements false applied) sent) := by
  obtain ⟨listed, applied, s, hlookup, happ, hfold, hfinish⟩ := lowerNode_eq_ok h
  rw [hreg] at hlookup
  have hstart : BlockRun.Ordered { run := r } := ⟨hr, nofun, nofun⟩
  obtain ⟨sent, hs, hemits⟩ := standard_emits (c := r.context o m paddings n)
    (Registry.lookup_standard hlookup) happ (BlockRun.tracks_start rfl) hstart hfold
  obtain ⟨owner, hlowered, _⟩ := hs.finish hfinish
  obtain ⟨rfl, _⟩ := Registry.lookup_standard_eq hlookup
  exact ⟨applied, sent, owner, happ, hlowered, hemits⟩

end nodes

/-! ### Plans -/

/-- The turn of a node in a plan with the standard registry: `c` is what the node is lowered in, and `applied`
the part of its block that applies. Owners of values, and plan nodes, are those of the finished plan. -/
structure Turn (m : Model) (p : Plan) (n : Node) (c : Context) (applied : Block) : Prop where
  node : c.node = n
  model : c.model = m
  block : Block.applicable c (Registry.standardBlock n.kind) = .ok applied
  kept : ∀ x q, c.table.owner? x = some q → p.table.owner? x = some q
  known : ∀ q ∈ c.table.nodes, q ∈ p.nodes
  emits : p.table.emitted n.id = [] ∧ (∃ cv ∈ applied, cv.action.mayForward = true) ∨
    BlockRun.Emits c [] (Block.elements false applied) (p.table.emitted n.id)

section turns
variable {o : Options} {m : Model} {p : Plan} {paddings : Propagation} {start final : Run} {n : Node}

theorem Planned.padded_turn (hm : m.Consistent) (hreg : o.registry = .standard)
    (hp : Planned o m p paddings start final) (hn : n ∈ p.order) :
    ∃ c applied, Turn m p n c applied ∧ c.outputPadding = paddings.outputPadding n.id := by
  obtain ⟨pre, post, hsplit⟩ := List.append_of_mem hn
  have hrun := hp.run
  rw [hsplit] at hrun
  obtain ⟨before, after, hpre, hlower, hpost⟩ := foldlM_append_cons_eq_ok hrun
  have hstage := hp.stage_of_run hm hsplit hpre hlower hpost
  have hordered : before.table.Ordered := by
    refine lowerNodes_ordered ?_ hpre
    rw [hp.empty]
    exact Ownership.ordered_empty
  obtain ⟨applied, sent, owner, happ, hlowered, hemits⟩ := lowerNode_emits hreg hordered hlower
  refine ⟨before.context o m paddings n, applied, ⟨rfl, rfl, happ, hstage.kept, fun q hq => ?_, ?_⟩, rfl⟩
  · rw [Plan.nodes, hp.table]
    refine foldlM_keeps (I := fun r : Run => q ∈ r.table.nodes) (fun _ _ r r' hr h => ?_) ?_ hpost
    · obtain ⟨_, _, hl⟩ := lowerNode_lowered h
      rw [hl.nodes]
      exact List.mem_append_left _ hr
    · rw [hlowered.nodes]
      exact List.mem_append_left _ hq
  · rw [(hstage.lowering hlowered).1]
    exact hemits

theorem Planned.turn (hm : m.Consistent) (hreg : o.registry = .standard)
    (hp : Planned o m p paddings start final) (hn : n ∈ p.order) : ∃ c applied, Turn m p n c applied := by
  obtain ⟨c, applied, hturn, _⟩ := hp.padded_turn hm hreg hn
  exact ⟨c, applied, hturn⟩

theorem Plan.mem_nodes_of_emitted {id : String} {q : PlanNode} (hq : q ∈ p.table.emitted id) : q ∈ p.nodes := by
  obtain ⟨e, he, rfl⟩ := List.mem_map.mp hq
  exact List.mem_map_of_mem (List.mem_of_mem_filter he)

/-- Every plan node of a node has its place in the turn of the node, after those that the elements before made. -/
theorem Turn.place {c : Context} {applied : Block} (h : Turn m p n c applied) {q : PlanNode}
    (hq : q ∈ p.table.emitted n.id) :
    ∃ sent pre e post s, Block.elements false applied = pre ++ e :: post ∧ BlockRun.Emits c [] pre sent ∧
      BlockRun.Origin c sent e s q ∧ ∀ k ∈ c.table.nodes ++ sent, k ∈ p.nodes := by
  obtain ⟨sent, more, hsplit⟩ := List.append_of_mem hq
  rcases h.emits with ⟨hnil, _⟩ | hemits
  · rw [hnil] at hq
    cases hq
  · rw [hsplit] at hemits
    obtain ⟨pre, post, helements, hpre, hpost⟩ := hemits.split
    cases hpost with
    | @cons _ _ e s _ post hq _ =>
        refine ⟨sent, pre, e, post, s, helements, hpre, hq, fun k hk => ?_⟩
        rcases List.mem_append.mp hk with hk | hk
        · exact h.known k hk
        · have hemitted : k ∈ p.table.emitted n.id := by
            rw [hsplit]
            exact List.mem_append_left _ hk
          exact Plan.mem_nodes_of_emitted hemitted

theorem Turn.converter_mem {c : Context} {applied : Block} (h : Turn m p n c applied) {e : Element}
    {pre post : List Element} (helements : Block.elements false applied = pre ++ e :: post) :
    e.converter ∈ Registry.standardBlock n.kind := by
  have hmem : e.converter ∈ applied := by
    rw [← elements_converters false applied, helements]
    exact List.mem_map_of_mem (List.mem_append_right _ List.mem_cons_self)
  rw [(applicable_eq_ok h.block).1] at hmem
  exact List.mem_of_mem_filter hmem

/-- Every plan node of a node has its origin in the turn of the node, and goes on from plan nodes. -/
theorem Turn.origin {c : Context} {applied : Block} (h : Turn m p n c applied) {q : PlanNode}
    (hq : q ∈ p.table.emitted n.id) :
    ∃ sent e s, BlockRun.Origin c sent e s q ∧ ∀ k ∈ c.table.nodes ++ sent, k ∈ p.nodes := by
  obtain ⟨sent, _, e, _, s, _, _, horigin, hnodes⟩ := h.place hq
  exact ⟨sent, e, s, horigin, hnodes⟩

end turns

end NetLowering
