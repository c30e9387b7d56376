import Mathlib
import NetLowering.Proofs.Elementwise
import NetLowering.Proofs.Lockstep

/-! # Splices

A splice stacks its inputs along the channels, and the plan node that owns its outputs always has the stacked
shape (`splices_stack_inputs`). What the node declares is compared with that shape only if there are several
inputs. A single input is left where it is, whatever shape the node declares for it: then neither the axis nor the
declaration is looked at. -/

namespace NetLowering

/-! ### Stacked shapes -/

/-- The shape is that of others stacked along the channels: it has the rows and columns of each, and as many
channels as they have together, as far as machine integers go. -/
structure Shape.Stacks (s : Shape) (shapes : List Shape) : Prop where
  rows : ∀ t ∈ shapes, t.rows = s.rows
  columns : ∀ t ∈ shapes, t.columns = s.columns
  channels : s.channels = Int64.ofInt (shapes.map fun t => t.channels.toInt).sum

theorem Shape.stacks_singleton (s : Shape) : s.Stacks [s] := by
  refine ⟨by simp, by simp, ?_⟩
  rw [List.map_singleton, List.sum_singleton, Int64.ofInt_toInt]

theorem foldl_add_toInt (xs : List Int64) (a : Int64) :
    xs.foldl (· + ·) a = Int64.ofInt (a.toInt + (xs.map Int64.toInt).sum) := by
  induction xs generalizing a with
  | nil => rw [List.foldl_nil, List.map_nil, List.sum_nil, Int.add_zero, Int64.ofInt_toInt]
  | cons x rest ih =>
      rw [List.foldl_cons, ih, List.map_cons, List.sum_cons, Int64.ofInt_add, Int64.ofInt_toInt, Int64.ofInt_add,
        Int64.ofInt_add, Int64.ofInt_toInt, Int64.ofInt_toInt, Int64.add_assoc]

theorem stack_eq_ok_iff {first s : Shape} {shapes : List Shape} (hfirst : first ∈ shapes) :
    Context.stack first shapes = .ok s ↔ s.Stacks shapes := by
  have hsum : (shapes.map Shape.channels).foldl (· + ·) 0 =
      Int64.ofInt (shapes.map fun t => t.channels.toInt).sum := by
    rw [foldl_add_toInt, Int64.toInt_zero, Int.zero_add, List.map_map]
    rfl
  unfold Context.stack
  split
  next other hother =>
    have hne := List.find?_some hother
    have hmem := List.mem_of_find?_eq_some hother
    rw [decide_eq_true_eq] at hne
    refine iff_of_false nofun fun h => hne.elim (fun hrows => ?_) fun hcolumns => ?_
    · exact hrows ((h.rows _ hmem).trans (h.rows _ hfirst).symm)
    · exact hcolumns ((h.columns _ hmem).trans (h.columns _ hfirst).symm)
  next hnone =>
    simp only [List.find?_eq_none, decide_eq_true_eq, not_or, not_not] at hnone
    rw [hsum]
    constructor
    · intro h
      cases h
      exact ⟨fun t ht => (hnone t ht).1, fun t ht => (hnone t ht).2, rfl⟩
    · rintro ⟨hrows, hcolumns, hchannels⟩
      rw [← hchannels, hrows _ hfirst, hcolumns _ hfirst]

/-- If the node declares the shape of its output, it is this one. -/
def Node.Declares (n : Node) (s : Shape) : Prop := ∀ d, n.outputShapes.head? = some d → d.canonical 0 = .ok s

/-! ### Owners of the inputs -/

/-- The plan nodes own the inputs of the node, one each. -/
def Ownership.OwnInputs (t : Ownership) (n : Node) (owners : List PlanNode) : Prop :=
  List.Forall₂ (fun x q => t.owner? x = some q) n.inputs owners

def writtenShapes (owners : List PlanNode) : List Shape := owners.map fun q => q.primitive.output.shape

theorem map_asOperand_shape (owners : List PlanNode) :
    (owners.map PlanNode.asOperand).map (fun o => o.buffer.shape) = writtenShapes owners := by
  rw [List.map_map]
  rfl

namespace Context

variable {c : Context} {owners : List PlanNode}

theorem input_eq_ok_iff (hprev : c.previous = none) {i : Nat} {operand : Operand} :
    c.input i = .ok operand ↔
      ∃ x, c.node.inputs[i]? = some x ∧ ∃ q, c.table.owner? x = some q ∧ q.asOperand = operand := by
  have hnone : (if (i : Int) = 0 then c.previous else none) = none := by rw [hprev, ite_self]
  rw [input_eq, hnone]
  constructor
  · intro h
    obtain ⟨q, hq, h⟩ := bind_eq_ok_iff.mp h
    obtain ⟨j, x, hij, hx, howner⟩ := (c.producer_ends i).result hq
    cases hij
    exact ⟨x, hx, q, howner, Except.ok.inj h⟩
  · rintro ⟨x, hx, q, howner, rfl⟩
    exact bind_eq_ok_iff.mpr ⟨q, c.producer_eq_ok hx howner, rfl⟩

theorem inputs_eq_ok_iff (hprev : c.previous = none) {operands : List Operand} :
    c.inputs = .ok operands ↔
      ∃ owners, c.table.OwnInputs c.node owners ∧ owners.map PlanNode.asOperand = operands := by
  have hrange : c.inputs = .ok operands ↔ List.Forall₂ (fun i operand => ∃ x, c.node.inputs[i]? = some x ∧
      ∃ q, c.table.owner? x = some q ∧ q.asOperand = operand) (List.range c.node.inputs.length) operands := by
    rw [inputs, mapM_eq_ok_iff]
    simp only [input_eq_ok_iff hprev]
  rw [hrange]
  constructor
  · intro h
    have hall := forall₂_take h
    rw [List.take_length] at hall
    exact exists_map_of_forall₂ hall
  · rintro ⟨owners, howners, rfl⟩
    obtain ⟨hlen, hget⟩ := List.forall₂_iff_get.mp howners
    refine List.forall₂_iff_get.mpr ⟨by rw [List.length_range, List.length_map, hlen], fun i hi hi' => ?_⟩
    rw [List.length_range] at hi
    rw [List.length_map] at hi'
    refine ⟨c.node.inputs[i], ?_, owners[i], hget i hi hi', ?_⟩
    · simp
    · simp

/-! ### Concatenations -/

theorem output_shape_of_declares {s : Shape} (hinputs : c.node.inputs ≠ []) (hprev : c.previous = none)
    (howners : c.table.OwnInputs c.node owners) (hdeclares : c.node.Declares s) :
    ∃ b, c.output = .ok b ∧ (c.node.outputShapes.isEmpty = false → b.shape = s) := by
  have hshape : ∃ t, c.outputShape = .ok t ∧ (c.node.outputShapes.isEmpty = false → t = s) := by
    unfold outputShape
    cases hdeclared : c.node.outputShapes with
    | cons d rest =>
        exact ⟨s, hdeclares d (by rw [hdeclared]; rfl), fun _ => rfl⟩
    | nil =>
        dsimp only
        rw [if_neg (by simpa using hinputs)]
        obtain ⟨x, rest, hx⟩ := List.exists_cons_of_ne_nil hinputs
        unfold Ownership.OwnInputs at howners
        rw [hx, List.forall₂_cons_left_iff] at howners
        obtain ⟨q, _, hq, _⟩ := howners
        have hfirst : c.input (0 : Nat) = .ok q.asOperand :=
          (input_eq_ok_iff hprev).mpr ⟨x, by rw [hx]; rfl, q, hq, rfl⟩
        exact ⟨_, bind_eq_ok_iff.mpr ⟨_, hfirst, rfl⟩, nofun⟩
  obtain ⟨t, ht, hs⟩ := hshape
  exact ⟨_, bind_eq_ok_iff.mpr ⟨t, ht, rfl⟩, hs⟩

/-- What is concatenated is stacked, and any declaration has been compared with it. -/
theorem convertConcatenation_eq_ok (hprev : c.previous = none) {p : Primitive}
    (h : c.convertConcatenation = .ok p) :
    c.node.word spliceAxisAttribute = .ok "channel" ∧ c.node.Declares p.output.shape ∧
      ∃ owners, c.table.OwnInputs c.node owners ∧ p.output.shape.Stacks (writtenShapes owners) := by
  unfold convertConcatenation at h
  split at h
  · cases h
  rename_i axis haxis
  split at h
  · cases h
  rename_i hchannel
  obtain ⟨operands, hoperands, h⟩ := bind_eq_ok_iff.mp h
  obtain ⟨owners, howners, rfl⟩ := (inputs_eq_ok_iff hprev).mp hoperands
  split at h
  · cases h
  rename_i first rest hfirst
  obtain ⟨stacked, hstacked, h⟩ := bind_eq_ok_iff.mp h
  obtain ⟨output, houtput, h⟩ := bind_eq_ok_iff.mp h
  split at h
  · cases h
  rename_i hagrees
  cases h
  refine ⟨of_not_not hchannel ▸ haxis, fun d hd => ?_, owners, howners, ?_⟩
  · obtain ⟨hshape, _⟩ := c.output_made.result houtput
    rcases outputShape_eq_ok hshape with ⟨d', hd', hcanonical⟩ | ⟨hnone, _⟩
    · cases hd.symm.trans hd'
      have hne : c.node.outputShapes.isEmpty = false := by
        cases hshapes : c.node.outputShapes with
        | nil => rw [hshapes] at hd; cases hd
        | cons => rfl
      have hsame : output.shape = stacked := by simpa [hne] using hagrees
      rw [hcanonical, hsame]
    · cases hnone.symm.trans hd
  · have hmem : first.buffer.shape ∈ (owners.map PlanNode.asOperand).map fun o => o.buffer.shape :=
      List.mem_map_of_mem (by rw [hfirst]; exact List.mem_cons_self)
    rw [map_asOperand_shape] at hmem hstacked
    exact (stack_eq_ok_iff hmem).mp hstacked

/-- Inputs that can be stacked are concatenated, if the axis and the declaration of the node allow it. -/
theorem exists_convertConcatenation (hprev : c.previous = none) {s : Shape} (hinputs : c.node.inputs ≠ [])
    (haxis : c.node.word spliceAxisAttribute = .ok "channel") (howners : c.table.OwnInputs c.node owners)
    (hstacks : s.Stacks (writtenShapes owners)) (hdeclares : c.node.Declares s) :
    ∃ p, c.convertConcatenation = .ok p := by
  obtain ⟨output, houtput, hsame⟩ := output_shape_of_declares hinputs hprev howners hdeclares
  have hoperands : c.inputs = .ok (owners.map PlanNode.asOperand) :=
    (inputs_eq_ok_iff hprev).mpr ⟨owners, howners, rfl⟩
  cases owners with
  | nil => exact absurd (List.forall₂_nil_right_iff.mp howners) hinputs
  | cons q rest =>
      have hstack : stack q.primitive.output.shape (writtenShapes (q :: rest)) = .ok s :=
        (stack_eq_ok_iff List.mem_cons_self).mpr hstacks
      have hagrees : ¬ (!c.node.outputShapes.isEmpty && output.shape ≠ s) = true := by
        cases hempty : c.node.outputShapes.isEmpty with
        | true => simp
        | false => simp [hsame hempty]
      refine ⟨{ kind := .concatenation
                operands := (q :: rest).map PlanNode.asOperand
                output := { output with shape := s }
                attributes := [("axis", .word "channel")] }, ?_⟩
      unfold convertConcatenation
      rw [haxis]
      dsimp only
      rw [if_neg (by simp), hoperands]
      refine bind_eq_ok_iff.mpr ⟨_, rfl, ?_⟩
      rw [map_asOperand_shape]
      refine bind_eq_ok_iff.mpr ⟨s, hstack, bind_eq_ok_iff.mpr ⟨output, houtput, ?_⟩⟩
      rw [if_neg hagrees]

/-- A single input is left with its owner, and several are concatenated. -/
theorem convertSplice_eq_ok_iff {outcome : Outcome} : c.convertSplice = .ok outcome ↔
    (∃ x q, c.node.inputs = [x] ∧ c.table.owner? x = some q ∧ outcome = { forward := some q }) ∨
      2 ≤ c.node.inputs.length ∧ ∃ p, c.convertConcatenation = .ok p ∧ outcome = .ofPrimitive p := by
  unfold convertSplice
  split
  next hnil => simp [hnil, fail]
  next x hx =>
    rw [hx]
    constructor
    · intro h
      obtain ⟨q, rfl, hq⟩ := c.forward_ends.result h
      obtain ⟨i, y, hi, hy, howner⟩ := (c.producer_ends 0).result hq
      cases hi
      rw [hx] at hy
      cases hy
      exact .inl ⟨x, q, rfl, howner, rfl⟩
    · rintro (⟨y, q, hy, howner, rfl⟩ | ⟨hlen, _⟩)
      · cases hy
        exact bind_eq_ok_iff.mpr ⟨q, c.producer_eq_ok (i := 0) (by rw [hx]; rfl) howner, rfl⟩
      · simp at hlen
  next hnil hsingle =>
    have hlen : 2 ≤ c.node.inputs.length := by
      rcases hinputs : c.node.inputs with _ | ⟨x, _ | ⟨y, rest⟩⟩
      · exact absurd hinputs hnil
      · exact absurd hinputs (hsingle x)
      · simp
    constructor
    · intro h
      cases hp : c.convertConcatenation with
      | error e => rw [hp] at h; cases h
      | ok p => rw [hp] at h; cases h; exact .inr ⟨hlen, p, rfl, rfl⟩
    · rintro (⟨x, _, hx, _⟩ | ⟨_, p, hp, rfl⟩)
      · exact absurd hx (hsingle x)
      · rw [hp]
        rfl

end Context

/-! ### Nodes -/

/-- What a splice comes to when `owners` own its inputs: it emits `sent`, and `owner` takes its outputs. -/
structure Node.Spliced (n : Node) (owners sent : List PlanNode) (owner : PlanNode) : Prop where
  stacked : owner.primitive.output.shape.Stacks (writtenShapes owners)
  single : n.inputs.length = 1 → sent = [] ∧ owners = [owner]
  several : 2 ≤ n.inputs.length → sent = [owner] ∧ n.Declares owner.primitive.output.shape

section lowering
variable {o : Options} {m : Model} {paddings : Propagation} {r r' : Run} {n : Node}

/-- A block of one converter does its work once the converter comes to anything. -/
theorem exists_lowerNode_single {cv : Converter} {outcome : Outcome}
    (hlookup : o.registry.lookup n.kind = .ok [cv])
    (happ : Block.applicable (r.context o m paddings n) [cv] = .ok [cv]) (hcv : cv.adapter = false)
    (hconv : (cv.action.convert (({ run := r } : BlockRun).here (r.context o m paddings n)
      ⟨cv, true, true⟩)).2 = .ok outcome) (hany : outcome.emit ≠ none ∨ outcome.forward ≠ none) :
    ∃ r', r.lowerNode o m paddings n = .ok r' := by
  obtain ⟨s, hstep⟩ := BlockRun.exists_step (e := ⟨cv, true, true⟩) hconv
  obtain ⟨outcome', hok, hforward, hcases⟩ := BlockRun.step_eq_ok hstep
  cases hconv.symm.trans hok
  have hfinish : ∃ r', s.finish n = .ok r' := by
    unfold BlockRun.finish
    rcases hcases with ⟨hnone, _, hprev⟩ | ⟨p, _, _, hprev⟩
    · obtain ⟨q, hq⟩ := Option.ne_none_iff_exists'.mp (hany.resolve_left (not_not.mpr hnone))
      rw [hq] at hforward
      rw [hprev, hforward]
      exact ⟨_, rfl⟩
    · rw [hprev]
      exact ⟨_, rfl⟩
  obtain ⟨r', hfinish⟩ := hfinish
  exact ⟨r', by rw [lowerNode_single hlookup happ hcv, hstep]; exact hfinish⟩

variable (hreg : o.registry = .standard) (hkind : n.kind = .splice)
include hreg hkind

theorem lookup_splice : o.registry.lookup n.kind = .ok [Registry.splice] := by
  rw [hreg, hkind]
  rfl

theorem lowerNode_splice (h : r.lowerNode o m paddings n = .ok r') :
    n.inputs ≠ [] ∧ (n.inputs.length = 1 ∨ n.word spliceAxisAttribute = .ok "channel") ∧
      ∃ owners sent owner, r.table.OwnInputs n owners ∧ Lowered r.table n r'.table sent owner ∧
        n.Spliced owners sent owner := by
  rw [lowerNode_single (lookup_splice hreg hkind) rfl rfl, bind_eq_ok_iff] at h
  obtain ⟨s, hstep, hfinish⟩ := h
  have hstart : BlockRun.Tracks (r.context o m paddings n) { run := r } [] := BlockRun.tracks_start rfl
  obtain ⟨outcome, hconv, hforward, hcases⟩ := BlockRun.step_eq_ok hstep
  rcases Context.convertSplice_eq_ok_iff.mp hconv with ⟨x, q, hx, hq, rfl⟩ | ⟨hlen, p, hp, rfl⟩
  · -- the single input has been left where it is
    rcases hcases with ⟨_, htable, hprev⟩ | ⟨_, hemit, _⟩
    · have htracks := hstart.silent ((Action.convert_sound _ _).result hconv) htable hprev hforward
      obtain ⟨owner, hl, howner⟩ := htracks.finish hfinish
      obtain rfl : q = owner := Option.some.inj (hforward.symm.trans (howner rfl))
      replace hx : n.inputs = [x] := hx
      refine ⟨by rw [hx]; exact List.cons_ne_nil _ _, .inl (by rw [hx]; rfl), [q], [], q, ?_, hl,
        Shape.stacks_singleton _, fun _ => ⟨rfl, rfl⟩, fun hlen => ?_⟩
      · rw [Ownership.OwnInputs, hx]
        exact .cons hq .nil
      · simp [hx] at hlen
    · cases hemit
  · rcases hcases with ⟨hemit, _⟩ | ⟨p', hemit, htable, hprev⟩
    · cases hemit
    · cases hemit
      obtain ⟨owner, hl, _⟩ := (hstart.emit htable hprev).finish hfinish
      obtain rfl : _ = owner := by
        rcases hl.source with hlast | ⟨hnil, _⟩
        · exact Option.some.inj hlast
        · cases hnil
      replace hlen : 2 ≤ n.inputs.length := hlen
      obtain ⟨haxis, hdeclares, owners, howners, hstacks⟩ := Context.convertConcatenation_eq_ok rfl hp
      refine ⟨List.ne_nil_of_length_pos (by omega), .inr haxis, owners, _, _, howners, hl, hstacks, fun hone => ?_,
        fun _ => ⟨rfl, hdeclares⟩⟩
      omega

/-- A splice can be lowered iff its inputs are there and can be stacked and, where there are several, the axis is
right and it declares no other shape. -/
theorem exists_lowerNode_splice_iff : (∃ r', r.lowerNode o m paddings n = .ok r') ↔
    n.inputs ≠ [] ∧ ∃ owners s, r.table.OwnInputs n owners ∧ s.Stacks (writtenShapes owners) ∧
      (n.inputs.length = 1 ∨ n.word spliceAxisAttribute = .ok "channel" ∧ n.Declares s) := by
  constructor
  · rintro ⟨r', h⟩
    obtain ⟨hinputs, haxis, owners, sent, owner, howners, _, hspliced⟩ := lowerNode_splice hreg hkind h
    refine ⟨hinputs, owners, _, howners, hspliced.stacked, ?_⟩
    by_cases hone : n.inputs.length = 1
    · exact .inl hone
    · have hpos := List.length_pos_of_ne_nil hinputs
      exact .inr ⟨haxis.resolve_left hone, (hspliced.several (by omega)).2⟩
  · rintro ⟨hinputs, owners, s, howners, hstacks, hrest⟩
    have hlowers (outcome : Outcome) (hconv : Context.convertSplice (({ run := r } : BlockRun).here
        (r.context o m paddings n) ⟨Registry.splice, true, true⟩) = .ok outcome)
        (hany : outcome.emit ≠ none ∨ outcome.forward ≠ none) : ∃ r', r.lowerNode o m paddings n = .ok r' :=
      exists_lowerNode_single (lookup_splice hreg hkind) rfl rfl hconv hany
    by_cases hone : n.inputs.length = 1
    · obtain ⟨x, hx⟩ := List.length_eq_one_iff.mp hone
      unfold Ownership.OwnInputs at howners
      rw [hx, List.forall₂_cons_left_iff] at howners
      obtain ⟨q, _, hq, _⟩ := howners
      exact hlowers _ (Context.convertSplice_eq_ok_iff.mpr (.inl ⟨x, q, hx, hq, rfl⟩)) (.inr nofun)
    · have hpos := List.length_pos_of_ne_nil hinputs
      obtain ⟨haxis, hdeclares⟩ := hrest.resolve_left hone
      obtain ⟨p, hp⟩ := Context.exists_convertConcatenation
        (c := ({ run := r } : BlockRun).here (r.context o m paddings n) ⟨Registry.splice, true, true⟩) rfl hinputs
        haxis howners hstacks hdeclares
      refine hlowers _ (Context.convertSplice_eq_ok_iff.mpr (.inr ⟨?_, p, hp, rfl⟩)) (.inl nofun)
      show 2 ≤ n.inputs.length
      omega

end lowering

/-! ### Plans -/

/-- With the standard registry the outputs of a splice belong to a plan node of the stacked shape: to a new one if
there are several inputs, and then the node declares no other shape, or else to the owner of the only input. Where
a splice of several inputs declares another shape it cannot be lowered; what a splice of one input declares has
no bearing on it. -/
theorem splices_stack_inputs (o : Options) (m : Model) (hm : m.Reachable) (hreg : o.registry = .standard) :
    (∀ name p, plan o name m = .ok p → ∀ n ∈ p.order, n.kind = .splice → n.inputs ≠ [] ∧ ∃ owners owner,
      p.table.OwnInputs n owners ∧ (∀ y ∈ n.outputs, p.table.owner? y = some owner) ∧
        n.Spliced owners (p.table.emitted n.id) owner) ∧
    ∀ paddings r n, n.kind = .splice → ((∃ r', Run.lowerNode o m paddings r n = .ok r') ↔
      n.inputs ≠ [] ∧ ∃ owners s, r.table.OwnInputs n owners ∧ s.Stacks (writtenShapes owners) ∧
        (n.inputs.length = 1 ∨ n.word spliceAxisAttribute = .ok "channel" ∧ n.Declares s)) := by
  refine ⟨fun name p h n hn hkind => ?_, fun paddings r n hkind => exists_lowerNode_splice_iff hreg hkind⟩
  obtain ⟨paddings, start, final, hp⟩ := plan_eq_ok h
  obtain ⟨pre, post, hsplit⟩ := List.append_of_mem hn
  obtain ⟨before, after, hstage⟩ := hp.stage hm.consistent hsplit
  obtain ⟨hinputs, _, owners, sent, owner, howners, hl, hspliced⟩ := lowerNode_splice hreg hkind hstage.lowered
  obtain ⟨hemitted, houtputs⟩ := hstage.lowering hl
  rw [hemitted]
  exact ⟨hinputs, owners, owner, howners.imp hstage.kept, houtputs, hspliced⟩

/-- An image spliced alone, under a shape that it does not have, and then with itself. -/
def splicedImage : List Node :=
  [{ id := "image", kind := .input, outputs := ["a"], outputShapes := [⟨[3, 4, 4], .channelRowColumn⟩] },
   { id := "alone", kind := .splice, inputs := ["a"], outputs := ["b"]
     outputShapes := [⟨[5, 7, 7], .channelRowColumn⟩] },
   { id := "both", kind := .splice, inputs := ["a", "b"], outputs := ["c"]
     attributes := [(spliceAxisAttribute, .word "channel")]
     outputShapes := [⟨[6, 4, 4], .channelRowColumn⟩] }]

theorem splices_stack_splicedImage : ∃ p, plan standardOptions "net" ⟨splicedImage, []⟩ = .ok p ∧
    (["a", "b", "c"].map fun x => (p.table.owner? x).map fun q => (q.id, q.primitive.output.shape)) =
      [some (1, ⟨4, 4, 3⟩), some (1, ⟨4, 4, 3⟩), some (2, ⟨4, 4, 6⟩)] ∧
    ∃ n ∈ p.order, n.kind = .splice ∧ ∃ owner, (∀ y ∈ n.outputs, p.table.owner? y = some owner) ∧
      n.Spliced [owner] (p.table.emitted n.id) owner ∧ ¬ n.Declares owner.primitive.output.shape := by
  have hreach : (Model.mk splicedImage []).Reachable :=
    Model.reachable_of_consistent ⟨by decide, by decide, by decide, by decide⟩
  obtain ⟨p, hplan, hview⟩ : ∃ p, plan standardOptions "net" ⟨splicedImage, []⟩ = .ok p ∧
      (p.order, ["a", "b", "c"].map fun x => (p.table.owner? x).map fun q => (q.id, q.primitive.output.shape)) =
        (splicedImage, [some (1, ⟨4, 4, 3⟩), some (1, ⟨4, 4, 3⟩), some (2, ⟨4, 4, 6⟩)]) :=
    exists_plan_of_view (by cbv)
  obtain ⟨horder, howners⟩ := Prod.ext_iff.mp hview
  dsimp only at horder howners
  have halone : splicedImage[1] ∈ p.order := by
    rw [horder]
    exact List.getElem_mem _
  obtain ⟨_, owners, owner, _, houtputs, hspliced⟩ :=
    (splices_stack_inputs standardOptions _ hreach rfl).1 "net" p hplan splicedImage[1] halone rfl
  obtain ⟨_, rfl⟩ := hspliced.single rfl
  refine ⟨p, hplan, howners, splicedImage[1], halone, rfl, owner, houtputs, hspliced, fun hdeclares => ?_⟩
  -- the owner is the image
  have hshape : owner.primitive.output.shape = ⟨4, 4, 3⟩ := by
    have hb : p.table.owner? "b" = some owner := houtputs "b" List.mem_cons_self
    simp only [List.map_cons, List.map_nil, hb, Option.map_some, List.cons.injEq, Option.some.injEq,
      Prod.mk.injEq] at howners
    exact howners.2.1.2
  have hcanonical := hdeclares _ rfl
  rw [hshape] at hcanonical
  cases hcanonical

end NetLowering
