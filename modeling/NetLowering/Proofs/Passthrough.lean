import NetLowering.Proofs.Resolution
import NetLowering.Proofs.SplitRun

/-! # Passthroughs put between

A passthrough put before a node, to read one of its inputs in its place, is a split: the passthrough takes
over one reading of the input and the node reads the rest. It contributes what the node contributes, comes
to nothing itself, and leaves its output with the owner of the input, so the plan stays as it is
(`plan_of_passthrough`).

It needs an owner to forward to. A node may get by with an input that has none, if no converter of its block
asks for it. That input is then a later output of an input of the model that was left out, and a
passthrough that reads it fails. -/

namespace NetLowering

/-- The second model is the first with a passthrough `t` put before the node `c`, between it and its input
`x` at position `i`. The output `y` of the passthrough is new. -/
structure Model.Taps (m m' : Model) (pre : List Node) (c t : Node) (post : List Node) (i : Nat)
    (x y : String) : Prop where
  nodes : m.nodes = pre ++ c :: post
  nodes' : m'.nodes = pre ++ t :: c.withInputs (c.inputs.set i y) :: post
  tensors : m'.tensors = m.tensors
  input : c.inputs[i]? = some x
  kind : t.kind = .passthrough
  inputs : t.inputs = [x]
  outputs : t.outputs = [y]
  fresh : ∀ k ∈ m.nodes, y ∉ k.inputs ∧ y ∉ k.outputs

namespace Model.Taps

variable {m m' : Model} {pre post : List Node} {c t : Node} {i : Nat} {x y : String}
variable (h : m.Taps m' pre c t post i x y)
include h

theorem mem_c : c ∈ m.nodes := by rw [h.nodes]; simp

theorem mem_x : x ∈ c.inputs := List.mem_of_getElem? h.input

theorem x_ne_y : x ≠ y := by
  rintro rfl
  exact (h.fresh c h.mem_c).1 h.mem_x

theorem splits (hskip : c.kind ≠ .skip) :
    m.Splits m' pre c t (c.withInputs (c.inputs.set i y)) post y := by
  obtain ⟨hi, hx⟩ := List.getElem?_eq_some_iff.mp h.input
  have hy : c.inputs.count y = 0 := List.count_eq_zero.mpr (h.fresh c h.mem_c).1
  refine ⟨h.nodes, h.nodes', h.tensors, h.outputs, rfl, h.fresh, ?_, ?_, fun z hz => ?_, ?_, Iff.rfl⟩
  · rw [h.inputs, List.mem_singleton]
    exact h.x_ne_y.symm
  · show (c.inputs.set i y).count y = 1
    rw [List.count_set hi, hy]
    simp
  · show t.inputs.count z + (c.inputs.set i y).count z = c.inputs.count z
    have hpos : x = z → 0 < c.inputs.count z := fun heq => heq ▸ List.count_pos_iff.mpr h.mem_x
    rw [h.inputs, List.count_set hi, hx, List.count_singleton]
    simp only [beq_iff_eq, hz.symm, if_false]
    split
    · have := hpos ‹_›
      omega
    · omega
  · rw [h.kind]
    exact ⟨nofun, nofun, hskip⟩

end Model.Taps

/-! ### Requirements -/

namespace Model

/-- A reader never contributes more than one requirement, so a transparent node in between changes
nothing. -/
theorem contribution_head (m : Model) (r : Node) :
    (m.contribution r).map (fun required => required.head?.toList) = m.contribution r := by
  unfold contribution
  split
  · rfl
  · split
    · rw [Option.map_map]
      congr 1
      funext required
      cases required <;> rfl
    · rfl

theorem Taps.faithful {m m' : Model} {pre post : List Node} {c t : Node} {i : Nat} {x y : String}
    (h : m.Taps m' pre c t post i x y) (hskip : c.kind ≠ .skip) (hm' : m'.Consistent) :
    Faithful m m' c t (c.withInputs (c.inputs.set i y)) y := by
  intro hreq r hr _
  have hv : m'.contribution (c.withInputs (c.inputs.set i y)) = m.contribution c := by
    unfold contribution
    show (if c.kind = .skip then _ else if c.kind.isTransparent then _ else _) = _
    rw [if_neg hskip, if_neg hskip]
    by_cases htrans : c.kind.isTransparent = true
    · rw [if_pos htrans, if_pos htrans, hreq htrans]
    · rw [if_neg htrans, if_neg htrans]
      rfl
  rcases hr with rfl | rfl
  · have htrans : r.kind.isTransparent = true := by rw [h.kind]; rfl
    rw [contribution, if_neg (ne_skip_of_isTransparent htrans), if_pos htrans,
      (h.splits hskip).requirements_u hm', contribution_head, hv]
  · exact hv

end Model

/-! ### The passthrough itself -/

section lowering
variable {o : Options} {m : Model} {paddings : Propagation} {r : Run} {t : Node} {x : String}
variable (hreg : o.registry = .standard) (hkind : t.kind = .passthrough) (hinputs : t.inputs = [x])

theorem passthrough_convert (hinputs : t.inputs = [x]) {q : PlanNode} (hq : r.table.owner? x = some q)
    (e : Element) : (Registry.passthrough.action.convert
      (({ run := r } : BlockRun).here (r.context o m paddings t) e)).2 = .ok { forward := some q } := by
  have hproducer := Context.producer_eq_ok (({ run := r } : BlockRun).here (r.context o m paddings t) e)
    (i := 0) (congrArg (fun inputs => inputs[0]?) hinputs) hq
  exact bind_eq_ok_iff.mpr ⟨q, hproducer, rfl⟩

theorem passthrough_convert_error (hinputs : t.inputs = [x]) (hx : r.table.owner? x = none) (e : Element) :
    (Registry.passthrough.action.convert
      (({ run := r } : BlockRun).here (r.context o m paddings t) e)).2 = fail (.inputNotOwned x) := by
  have hproducer : Context.producer (({ run := r } : BlockRun).here (r.context o m paddings t) e) 0 =
      fail (.inputNotOwned x) :=
    Context.producer_eq_error _ (i := 0) (congrArg (fun inputs => inputs[0]?) hinputs) hx
  show Context.producer _ 0 >>= _ = _
  rw [hproducer]
  rfl

include hreg hkind

theorem lowerNode_passthrough_eq : r.lowerNode o m paddings t =
    (({ run := r } : BlockRun).step (r.context o m paddings t) ⟨Registry.passthrough, true, true⟩ >>=
      fun s => s.finish t) := by
  refine lowerNode_single ?_ rfl rfl
  rw [hreg, hkind]
  rfl

include hinputs

theorem lowerNode_passthrough {q : PlanNode} (hq : r.table.owner? x = some q) :
    ∃ r₁, r.lowerNode o m paddings t = .ok r₁ ∧ Lowered r.table t r₁.table [] q := by
  have hconv : (Registry.passthrough.action.convert (({ run := r } : BlockRun).here
      (r.context o m paddings t) ⟨Registry.passthrough, true, true⟩)).2 = .ok { forward := some q } :=
    passthrough_convert hinputs hq _
  obtain ⟨s, hstep⟩ := BlockRun.exists_step (e := ⟨Registry.passthrough, true, true⟩) hconv
  obtain ⟨outcome, hok, hforward, ⟨_, htable, hprev⟩ | ⟨p, hemit, _⟩⟩ := BlockRun.step_eq_ok hstep
  · have hsame := hconv.symm.trans hok
    cases hsame
    have htracks : BlockRun.Tracks (r.context o m paddings t) s [] :=
      (BlockRun.tracks_start rfl).silent ((Action.convert_sound _ _).result hok) htable hprev hforward
    have hfinish : s.finish t = .ok ⟨s.run.table.own t q, s.run.trace.note (.elided t q)⟩ := by
      unfold BlockRun.finish
      rw [hprev, hforward]
      rfl
    obtain ⟨owner, hl, howner⟩ := htracks.finish hfinish
    obtain rfl : q = owner := Option.some.inj (hforward.symm.trans (howner rfl))
    refine ⟨_, ?_, hl⟩
    rw [lowerNode_passthrough_eq hreg hkind, hstep]
    exact hfinish
  · have hsame := hconv.symm.trans hok
    cases hsame
    cases hemit

theorem lowerNode_passthrough_error (hx : r.table.owner? x = none) :
    ∃ halt, r.lowerNode o m paddings t = .error halt ∧ halt.error.cause = .inputNotOwned x := by
  have hconv : (Registry.passthrough.action.convert (({ run := r } : BlockRun).here
      (r.context o m paddings t) ⟨Registry.passthrough, true, true⟩)).2 = fail (.inputNotOwned x) :=
    passthrough_convert_error hinputs hx _
  rw [lowerNode_passthrough_eq hreg hkind]
  cases hstep : ({ run := r } : BlockRun).step (r.context o m paddings t)
      ⟨Registry.passthrough, true, true⟩ with
  | ok s =>
      obtain ⟨outcome, hok, _⟩ := BlockRun.step_eq_ok hstep
      have hsame := hconv.symm.trans hok
      cases hsame
  | error halt =>
      obtain ⟨err, hfail, hcause, _⟩ := BlockRun.step_eq_error hstep
      have hsame := hconv.symm.trans hfail
      cases hsame
      exact ⟨halt, rfl, hcause⟩

end lowering

/-! ### Plans -/

/-- Every plan node stands for itself only. -/
def Correspondence.same : Correspondence where
  number := id
  Pairs := Eq
  reads := by rintro q _ rfl; rfl

theorem Correspondence.same_steady : Correspondence.same.Steady := ⟨rfl, fun _ => rfl⟩

namespace Model.Taps

variable {o : Options} {name : String} {m m' : Model} {pre post : List Node} {c t : Node} {i : Nat}
variable {x y : String} {p : Plan} {before middle after : List Node} {start start' final : Run}
variable (h : m.Taps m' pre c t post i x y) (hm : m.Consistent) (hm' : m'.Consistent)
variable (hc : c ∈ (scheduleWithout m m.propagation.isCyclic).order)
variable (hapart : ScheduledApart c t (c.withInputs (c.inputs.set i y))
  (scheduleWithout m m.propagation.isCyclic) (scheduleWithout m' m'.propagation.isCyclic)
  before middle after)
include h hm hm' hc hapart

theorem mem_before {k : Node} (hk : k ∈ (scheduleWithout m m.propagation.isCyclic).order)
    (hx : x ∈ k.outputs) : k ∈ before := by
  have hne : k ≠ c := by
    rintro rfl
    exact not_mem_outputs_of_mem_inputs hm hc h.mem_x hx
  have hk' : k ∈ (scheduleWithout m' m'.propagation.isCyclic).order := by
    rw [hapart.order] at hk
    rw [hapart.order']
    simp only [List.mem_append, List.mem_cons] at hk ⊢
    tauto
  exact mem_before_of_mem_outputs hm' hapart.order' (by rw [h.inputs]; simp) hk' hx

omit hm hm' hc hapart in
/-- The passthrough leaves its output with the owner of its input, and changes nothing else. -/
theorem lower_tap {r r' : Run} (hreg : o.registry = .standard)
    (halong : Alongside .same y r.table r'.table) {q : PlanNode} (hq : r.table.owner? x = some q) :
    ∃ r'', r'.lowerNode o m' m'.propagation t = .ok r'' ∧ Alongside .same y r.table r''.table ∧
      r''.table.owner? y = some q := by
  have hq' : r'.table.owner? x = some q := by
    have hrel := halong.owner x h.x_ne_y
    rw [hq] at hrel
    generalize r'.table.owner? x = owner at hrel
    cases hrel with
    | some hsame => exact congrArg some hsame.symm
  obtain ⟨r'', hlower, hl⟩ := lowerNode_passthrough hreg h.kind h.inputs hq'
  refine ⟨r'', hlower, ⟨?_, fun z hz => ?_⟩, ?_⟩
  · rw [hl.nodes, List.append_nil]
    exact halong.nodes
  · rw [hl.owner_eq, if_neg (by rw [h.outputs]; simpa using hz)]
    exact halong.owner z hz
  · rw [hl.owner_eq, if_pos (by rw [h.outputs]; simp)]

omit hapart in
theorem lower_reader {r r₁ r' : Run} (hreg : o.registry = .standard)
    (halong : Alongside .same y r.table r'.table) {q : PlanNode} (hx : r.table.owner? x = some q)
    (hy : r'.table.owner? y = some q) (hlower : r.lowerNode o m m.propagation c = .ok r₁) :
    ∃ r₁', r'.lowerNode o m' m'.propagation (c.withInputs (c.inputs.set i y)) = .ok r₁' ∧
      Alongside .same y r₁.table r₁'.table := by
  have hskip := (mem_of_mem_order hc).2.1
  have hsplits := h.splits hskip
  have hfresh := h.fresh c h.mem_c
  have hloop : ∀ z ∈ c.inputs, z ∉ c.outputs := fun z => not_mem_outputs_of_mem_inputs hm hc
  have hloop' : ∀ z ∈ c.inputs.set i y, z ∉ c.outputs := by
    intro z hz
    rcases List.mem_or_eq_of_mem_set hz with hz | rfl
    · exact hloop z hz
    · exact hfresh.2
  have howners : List.Forall₂ (fun z z' => Option.Rel Correspondence.same.Pairs (r.table.owner? z)
      (r'.table.owner? z')) c.inputs (c.inputs.set i y) := by
    refine forall₂_set (fun z hz => halong.owner z fun heq => hfresh.1 (heq ▸ hz)) h.input ?_
    rw [hx, hy]
    exact .some rfl
  have hpadding := hsplits.outputPadding_eq hm hm' (h.faithful hskip hm')
    (Splits.requirements_ne_none_of_scheduled hm hc) .last (mem_of_mem_order hc).2.2
  exact halong.lowerNode Correspondence.same_steady hreg hsplits.tensor?_eq rfl howners hpadding hloop
    hloop' hlower

/-- The passthrough and what comes after it can be lowered if its input has an owner. -/
theorem relower (hreg : o.registry = .standard) (hp : Planned o m p m.propagation start final)
    (hempty : start'.table = {}) (howned : ∃ k ∈ p.order, x ∈ k.outputs) :
    ∃ final', (before ++ t :: (middle ++ c.withInputs (c.inputs.set i y) :: after)).foldlM
      (Run.lowerNode o m' m'.propagation) start' = .ok final' ∧
        Alongside .same y final.table final'.table := by
  have hskip := (mem_of_mem_order hc).2.1
  have htensor := (h.splits hskip).tensor?_eq
  have hothers := (h.splits hskip).bystanders hm hm' (h.faithful hskip hm') hc hapart.order
  simp only [List.mem_append] at hothers
  have horder : p.order = before ++ (middle ++ c :: after) := hp.order.trans hapart.order
  obtain ⟨k, hk, hxk⟩ := howned
  have hbefore : k ∈ before := h.mem_before hm hm' hc hapart (hp.order ▸ hk) hxk
  have hrun := hp.run
  rw [horder, List.foldlM_append, bind_eq_ok_iff] at hrun
  obtain ⟨r₁, hrun₁, hrun⟩ := hrun
  obtain ⟨r₂, r₃, hrun₂, hlower, hrun₃⟩ := foldlM_append_cons_eq_ok hrun
  have hstart : Alongside .same y start.table start'.table := by
    rw [hp.empty, hempty]
    exact .empty _ _
  obtain ⟨r₁', hrun₁', h₁⟩ := hstart.foldlM Correspondence.same_steady hreg htensor
    (fun n hn => hothers n (.inl hn)) hrun₁
  obtain ⟨q, hq⟩ := (owned_iff hrun₁ x).mpr (.inr ⟨k, hbefore, hxk⟩)
  obtain ⟨r₁'', hlower_t, h₁', hy₁⟩ := h.lower_tap hreg h₁ hq
  obtain ⟨r₂', hrun₂', h₂⟩ := h₁'.foldlM Correspondence.same_steady hreg htensor
    (fun n hn => hothers n (.inr (.inl hn))) hrun₂
  -- in between neither the input nor the output of the passthrough changes hands
  have hx₂ : r₂.table.owner? x = some q := by
    have hapart_k (n : Node) (hn : n ∈ middle) : x ∉ n.outputs :=
      (hp.apart hm horder hbefore (List.mem_append_left _ hn)).2 x hxk
    rw [owner?_frame hapart_k hrun₂, hq]
  have hy₂ : r₂'.table.owner? y = some q := by
    rw [owner?_frame (fun n hn => (hothers n (.inr (.inl hn))).unlinked.2) hrun₂', hy₁]
  obtain ⟨r₃', hlower', h₃⟩ := h.lower_reader hm hm' hc hreg h₂ hx₂ hy₂ hlower
  obtain ⟨final', hrun₃', hfinal⟩ := h₃.foldlM Correspondence.same_steady hreg htensor
    (fun n hn => hothers n (.inr (.inr hn))) hrun₃
  exact ⟨final', foldlM_append_cons_of_ok hrun₁' hlower_t
    (foldlM_append_cons_of_ok hrun₂' hlower' hrun₃'), hfinal⟩

end Model.Taps

namespace Model.Taps

variable {o : Options} {name : String} {m m' : Model} {pre post : List Node} {c t : Node} {i : Nat}
variable {x y : String} {p : Plan}
variable (h : m.Taps m' pre c t post i x y) (hm : m.Consistent) (hm' : m'.Consistent)
variable (hreg : o.registry = .standard) (hplan : plan o name m = .ok p) (hc : c ∈ p.order)
include h hm hm' hreg hplan hc

theorem exists_plan (howned : ∃ k ∈ p.order, x ∈ k.outputs) :
    ∃ p', plan o name m' = .ok p' ∧
      p.SplitInto .same p' c t (c.withInputs (c.inputs.set i y)) := by
  obtain ⟨paddings, start, final, hp⟩ := plan_eq_ok hplan
  obtain ⟨_, rfl⟩ := propagate_eq_ok_iff.mp hp.propagated
  have hc' : c ∈ (scheduleWithout m m.propagation.isCyclic).order := hp.order ▸ hc
  have hskip := (mem_of_mem_order hc').2.1
  refine (h.splits hskip).exists_plan hm hm' (h.faithful hskip hm') hplan hc ?_
  intro before middle after start start' final hapart hempty hp
  exact h.relower hm hm' hc' hapart hreg hp hempty howned

/-- Without an owner of its input the passthrough fails. -/
theorem exists_error (hlost : ¬∃ k ∈ p.order, x ∈ k.outputs) :
    ∃ e, plan o name m' = .error e ∧ e.cause = .inputNotOwned x := by
  obtain ⟨paddings, start, final, hp⟩ := plan_eq_ok hplan
  obtain ⟨hagree, rfl⟩ := propagate_eq_ok_iff.mp hp.propagated
  have hc' : c ∈ (scheduleWithout m m.propagation.isCyclic).order := hp.order ▸ hc
  have hskip := (mem_of_mem_order hc').2.1
  have hf := h.faithful hskip hm'
  have hreq := Splits.requirements_ne_none_of_scheduled hm hc'
  have hprop' : propagate o.strictPadding m' = .ok m'.propagation :=
    propagate_eq_ok_iff.mpr ⟨fun hs => (h.splits hskip).agree hm hm' hf hreq (hagree hs), rfl⟩
  obtain ⟨before, middle, after, hapart⟩ := (h.splits hskip).schedules_apart hm hm' hf hc'
  have hothers := (h.splits hskip).bystanders hm hm' hf hc' hapart.order
  have hrun := hp.run
  rw [hp.order, hapart.order, List.foldlM_append, bind_eq_ok_iff] at hrun
  obtain ⟨r₁, hrun₁, _⟩ := hrun
  refine NetLowering.exists_error name (P := fun cause => cause = .inputNotOwned x) hprop'
    hapart.order' fun start' hempty => ?_
  have hstart : Alongside .same y start.table start'.table := by
    rw [hp.empty, hempty]
    exact .empty _ _
  obtain ⟨r₁', hrun₁', _⟩ := hstart.foldlM Correspondence.same_steady hreg (h.splits hskip).tensor?_eq
    (fun n hn => hothers n (List.mem_append_left _ hn)) hrun₁
  have hnone : r₁'.table.owner? x = none := by
    rw [Option.eq_none_iff_forall_ne_some]
    intro q hq
    rcases (owned_iff hrun₁' x).mp ⟨q, hq⟩ with ⟨q', hq'⟩ | ⟨k, hk, hxk⟩
    · rw [hempty] at hq'
      cases hq'
    · refine hlost ⟨k, ?_, hxk⟩
      rw [hp.order, hapart.order]
      exact List.mem_append_left _ hk
  obtain ⟨halt, hfail, hcause⟩ := lowerNode_passthrough_error hreg h.kind h.inputs hnone
  exact ⟨r₁', halt, hrun₁', hfail, hcause⟩

omit hm' hreg in
/-- An input without an owner is a later output of an input of the model that was left out. -/
theorem exists_leftOut (hlost : ¬∃ k ∈ p.order, x ∈ k.outputs) :
    ∃ d ∈ m.nodes, ⟨d.id, d.kind, .deadInput⟩ ∈ p.dropped ∧ x ∈ d.outputs.tail := by
  obtain ⟨paddings, start, final, hp, _, hdropped, _⟩ := plan_parts hplan
  obtain ⟨before, after, hsplit⟩ := List.append_of_mem hc
  rw [hp.order] at hsplit
  rcases before_or_lost hsplit h.mem_x with ⟨k, hk, hxk⟩ | ⟨d, hd, hdead, hxd⟩
  · refine absurd ⟨k, ?_, hxk⟩ hlost
    rw [hp.order, hsplit]
    exact List.mem_append_left _ hk
  · have hmem := (mem_of_mem_runnable hd).1
    refine ⟨d, hmem, ?_, hxd⟩
    rw [hdropped]
    exact List.mem_append_right _ ((leavesOut_iff hm hmem).mpr ⟨hd, hdead⟩)

end Model.Taps

/-- A passthrough put between a scheduled node and one of its inputs is invisible, strict mode or not, if the
input has an owner: there is a plan with the same plan nodes, inputs, outputs and nodes left out, and its
order is the same but for the passthrough. If it has none, which takes an input of the model left out for
its first output alone, the passthrough fails. -/
theorem plan_of_passthrough (o : Options) (name : String) (m m' : Model) (p : Plan) (pre post : List Node)
    (c t : Node) (i : Nat) (x y : String) (hm : m.Reachable) (hm' : m'.Reachable)
    (hreg : o.registry = .standard) (hplan : plan o name m = .ok p) (hc : c ∈ p.order)
    (htaps : m.Taps m' pre c t post i x y) :
    ((∃ k ∈ p.order, x ∈ k.outputs) → ∃ p', plan o name m' = .ok p' ∧ p'.nodes = p.nodes ∧
      p'.inputs = p.inputs ∧ p'.outputs = p.outputs ∧ p'.dropped = p.dropped ∧
      ∃ before middle after, p.order = before ++ (middle ++ c :: after) ∧
        p'.order = before ++ t :: (middle ++ c.withInputs (c.inputs.set i y) :: after)) ∧
    ((¬∃ k ∈ p.order, x ∈ k.outputs) →
      (∃ e, plan o name m' = .error e ∧ e.cause = .inputNotOwned x) ∧
      ∃ d ∈ m.nodes, ⟨d.id, d.kind, .deadInput⟩ ∈ p.dropped ∧ x ∈ d.outputs.tail) := by
  constructor
  · intro howned
    obtain ⟨p', hplan', hsplit⟩ :=
      htaps.exists_plan hm.consistent hm'.consistent hreg hplan hc howned
    have hnodes : p.nodes = p'.nodes := List.forall₂_eq_eq_eq ▸ hsplit.nodes
    have houtputs : List.Forall₂ Eq p.outputs p'.outputs := by
      refine hsplit.outputs.imp fun a b hab => ?_
      cases a
      cases b
      exact congrArg₂ PlanOutput.mk hab.1.symm hab.2
    rw [List.forall₂_eq_eq_eq] at houtputs
    refine ⟨p', hplan', hnodes.symm, ?_, houtputs.symm, hsplit.dropped, hsplit.order⟩
    unfold Plan.inputs
    rw [hnodes]
  · intro hlost
    exact ⟨htaps.exists_error hm.consistent hm'.consistent hreg hplan hc hlost,
      htaps.exists_leftOut hm.consistent hplan hc hlost⟩

/-! ### An input nobody asks for -/

/-- A rectifier that lists a second input, which its converter does not ask for. -/
def pickyReader : Node := { id := "relu", kind := .relu, inputs := ["a", "spare"], outputs := ["out"] }

/-- Two inputs of the model. The second input of `pickyReader` is the second output of one of them, whose
first output is not read. -/
def imagePair : List Node :=
  [{ id := "pair", kind := .input, outputs := ["unread", "spare"],
     outputShapes := [⟨[1, 1, 1], .channelRowColumn⟩] },
   { id := "image", kind := .input, outputs := ["a"], outputShapes := [⟨[1, 1, 1], .channelRowColumn⟩] }]

def tap (x : String) : Node := { id := "tap", kind := .passthrough, inputs := [x], outputs := ["y"] }

/-- The model of `imagePair` and `pickyReader`, with a passthrough between the reader and one of its
inputs. -/
def tapped (i : Nat) (x : String) : List Node :=
  imagePair ++ [tap x, pickyReader.withInputs (pickyReader.inputs.set i "y")]

theorem plan_of_passthrough_imagePair :
    ∃ p, plan standardOptions "net" ⟨imagePair ++ [pickyReader], []⟩ = .ok p ∧
      (∃ p', plan standardOptions "net" ⟨tapped 0 "a", []⟩ = .ok p' ∧ p'.nodes = p.nodes) ∧
      ∃ e, plan standardOptions "net" ⟨tapped 1 "spare", []⟩ = .error e ∧
        e.cause = .inputNotOwned "spare" := by
  have hreach : (Model.mk (imagePair ++ [pickyReader]) []).Reachable :=
    Model.reachable_of_consistent ⟨by decide, by decide, by decide, by decide⟩
  have hreach₀ : (Model.mk (tapped 0 "a") []).Reachable :=
    Model.reachable_of_consistent ⟨by decide, by decide, by decide, by decide⟩
  have hreach₁ : (Model.mk (tapped 1 "spare") []).Reachable :=
    Model.reachable_of_consistent ⟨by decide, by decide, by decide, by decide⟩
  obtain ⟨p, hplan, horder⟩ : ∃ p, plan standardOptions "net" ⟨imagePair ++ [pickyReader], []⟩ = .ok p ∧
      p.order = imagePair.drop 1 ++ [pickyReader] :=
    exists_plan_of_order (by cbv) (List.cons_ne_nil _ _)
  have hmem : pickyReader ∈ p.order := by rw [horder]; simp
  have hkept := (plan_of_passthrough standardOptions "net" _ ⟨tapped 0 "a", []⟩ p imagePair [] pickyReader
    (tap "a") 0 "a" "y" hreach hreach₀ rfl hplan hmem
    ⟨rfl, rfl, rfl, rfl, rfl, rfl, rfl, by decide⟩).1
  have hlost := (plan_of_passthrough standardOptions "net" _ ⟨tapped 1 "spare", []⟩ p imagePair []
    pickyReader (tap "spare") 1 "spare" "y" hreach hreach₁ rfl hplan hmem
    ⟨rfl, rfl, rfl, rfl, rfl, rfl, rfl, by decide⟩).2
  rw [horder] at hkept hlost
  obtain ⟨p', hplan', hnodes, _⟩ := hkept (by decide)
  exact ⟨p, hplan, ⟨p', hplan', hnodes⟩, (hlost (by decide)).1⟩

end NetLowering
