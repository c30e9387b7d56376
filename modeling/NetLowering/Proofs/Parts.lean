import NetLowering.Proofs.Requirements
import NetLowering.Proofs.Schedule

/-! # Parts of a model

A part of a model is some of its nodes, in their order, such that no value leads from a node of the part to
one outside or back; `skip` nodes may read what they like, since nobody waits for them. A part is settled as
if the rest were not there: its nodes have the requirements they have in the whole
(`PartOf.requirements_eq`), and its schedule is that of the whole, restricted to it (`PartOf.order`,
`PartOf.dropped`). -/

namespace NetLowering

/-- What is kept of what passes a test passes the test among what is kept. -/
theorem filter_within {α : Type} {keep test test' : α → Bool} {xs : List α}
    (h : ∀ x ∈ xs, keep x = true → test' x = test x) :
    (xs.filter keep).filter test' = (xs.filter test).filter keep := by
  rw [List.filter_filter, List.filter_filter]
  refine List.filter_congr fun x hx => ?_
  cases hkeep : keep x with
  | false => rw [Bool.and_false, Bool.false_and]
  | true => rw [h x hx hkeep, Bool.and_true, Bool.true_and]

/-! ### Sweeps over a part -/

section sweeps
variable {keep : Node → Bool} {available available' later : List String} {nodes taken waiting : List Node}

/-- No node that is kept reads an output of one that is not. -/
def ReadsWithin (keep : Node → Bool) (nodes : List Node) : Prop :=
  ∀ a ∈ nodes, keep a = true → ∀ b ∈ nodes, keep b = false → ∀ x ∈ b.outputs, x ∉ a.inputs

/-- The lists hold the same values, as far as the nodes that are kept can tell. -/
def AgreeWithin (keep : Node → Bool) (nodes : List Node) (xs ys : List String) : Prop :=
  ∀ a ∈ nodes, keep a = true → ∀ x ∈ a.inputs, x ∈ ys ↔ x ∈ xs

theorem AgreeWithin.append (h : AgreeWithin keep nodes available available') (more : List String) :
    AgreeWithin keep nodes (available ++ more) (available' ++ more) := by
  intro a ha hkeep x hx
  rw [List.mem_append, List.mem_append, h a ha hkeep x hx]

/-- Outputs of a node that is not kept make no difference. -/
theorem AgreeWithin.append_left (h : AgreeWithin keep nodes available available')
    (hreads : ReadsWithin keep nodes) {b : Node} (hb : b ∈ nodes) (hout : keep b = false) :
    AgreeWithin keep nodes (available ++ b.outputs) available' := by
  intro a ha hkeep x hx
  rw [List.mem_append, h a ha hkeep x hx]
  exact (or_iff_left fun hxb => hreads a ha hkeep b hb hout x hxb hx).symm

theorem AgreeWithin.isReady_eq (h : AgreeWithin keep nodes available available') {a : Node}
    (ha : a ∈ nodes) (hkeep : keep a = true) : a.isReady available' = a.isReady available :=
  Node.isReady_congr (h a ha hkeep)

theorem AgreeWithin.missing_eq (h : AgreeWithin keep nodes available available') {a : Node}
    (ha : a ∈ nodes) (hkeep : keep a = true) : a.missing available' = a.missing available :=
  Node.missing_congr (h a ha hkeep)

/-- A sweep over the part takes what the sweep over the whole takes of it. -/
theorem sweep_filter {all : List Node} (hsub : ∀ n ∈ nodes, n ∈ all) (hreads : ReadsWithin keep all)
    (h : AgreeWithin keep all available available') (hs : sweep available nodes = ⟨taken, waiting, later⟩) :
    ∃ later', sweep available' (nodes.filter keep) = ⟨taken.filter keep, waiting.filter keep, later'⟩ ∧
      AgreeWithin keep all later later' := by
  induction nodes generalizing available available' taken waiting with
  | nil =>
      cases hs
      exact ⟨available', rfl, h⟩
  | cons n rest ih =>
      have hn : n ∈ all := hsub n List.mem_cons_self
      have hrest : ∀ k ∈ rest, k ∈ all := fun k hk => hsub k (List.mem_cons_of_mem _ hk)
      rw [sweep] at hs
      cases hkeep : keep n with
      | true =>
          have hready' := h.isReady_eq hn hkeep
          rw [List.filter_cons_of_pos hkeep]
          split at hs
          · rename_i hready
            cases hs
            obtain ⟨later', hs', hagree⟩ := ih hrest (h.append n.outputs) rfl
            rw [List.filter_cons_of_pos hkeep]
            exact ⟨later', sweep_cons_of_ready (hready'.trans hready) hs', hagree⟩
          · rename_i hready
            cases hs
            obtain ⟨later', hs', hagree⟩ := ih hrest h rfl
            rw [List.filter_cons_of_pos hkeep]
            exact ⟨later', sweep_cons_of_not_ready (hready'.trans (by simpa using hready)) hs', hagree⟩
      | false =>
          have hout : ¬ keep n = true := Bool.eq_false_iff.mp hkeep
          rw [List.filter_cons_of_neg hout]
          split at hs
          · cases hs
            obtain ⟨later', hs', hagree⟩ := ih hrest (h.append_left hreads hn hkeep) rfl
            rw [List.filter_cons_of_neg hout]
            exact ⟨later', hs', hagree⟩
          · cases hs
            obtain ⟨later', hs', hagree⟩ := ih hrest h rfl
            rw [List.filter_cons_of_neg hout]
            exact ⟨later', hs', hagree⟩

theorem sweep_eq_of_nil (hs : sweep available nodes = ⟨[], waiting, later⟩) :
    waiting = nodes ∧ later = available := by
  refine ⟨?_, by rw [available_of_sweep hs, List.flatMap_nil, List.append_nil]⟩
  induction nodes generalizing waiting with
  | nil => cases hs; rfl
  | cons n rest ih =>
      rw [sweep] at hs
      split at hs
      · cases hs
      · cases hrest : sweep available rest with
        | mk taken waiting₁ later₁ =>
            rw [hrest] at hs
            cases hs
            rw [ih hrest]

/-- One sweep ahead, nothing is lost. -/
theorem settle_eq_of_sweep (hs : sweep available nodes = ⟨taken, waiting, later⟩) :
    (settle available nodes).taken = taken ++ (settle later waiting).taken ∧
      (settle available nodes).waiting = (settle later waiting).waiting := by
  by_cases hne : taken = []
  · subst hne
    obtain ⟨rfl, rfl⟩ := sweep_eq_of_nil hs
    exact ⟨rfl, rfl⟩
  · rw [settle_of_sweep hs hne]
    exact ⟨rfl, rfl⟩

theorem settle_filter {all : List Node} (hsub : ∀ n ∈ nodes, n ∈ all) (hreads : ReadsWithin keep all)
    (h : AgreeWithin keep all available available') :
    (settle available' (nodes.filter keep)).taken = (settle available nodes).taken.filter keep ∧
      (settle available' (nodes.filter keep)).waiting = (settle available nodes).waiting.filter keep := by
  -- on the number of nodes that wait; a sweep may take nodes of the whole and none of the part
  induction hlen : nodes.length using Nat.strongRecOn generalizing nodes available available' with
  | ind len ih =>
      cases hs : sweep available nodes with
      | mk taken waiting later =>
          obtain ⟨later', hs', hagree⟩ := sweep_filter hsub hreads h hs
          by_cases hne : taken = []
          · subst hne
            rw [settle_of_nil hs, settle_of_nil hs']
            exact ⟨rfl, rfl⟩
          · have hwait : ∀ n ∈ waiting, n ∈ all := fun n hn =>
              hsub n ((perm_of_sweep hs).subset (List.mem_append_right _ hn))
            obtain ⟨htaken, hwaiting⟩ := ih _ (hlen ▸ sweep_waiting_lt hs hne) hwait hagree rfl
            obtain ⟨hall, hall_waiting⟩ := settle_eq_of_sweep hs
            obtain ⟨hpart, hpart_waiting⟩ := settle_eq_of_sweep hs'
            rw [hpart, hall, hpart_waiting, hall_waiting, htaken, hwaiting, List.filter_append]
            exact ⟨rfl, rfl⟩

theorem agreeWithin_outputs {all : List Node} (hreads : ReadsWithin keep all) (hsub : ∀ n ∈ nodes, n ∈ all) :
    AgreeWithin keep all (nodes.flatMap Node.outputs) ((nodes.filter keep).flatMap Node.outputs) := by
  intro a ha hkeep x hx
  simp only [List.mem_flatMap, List.mem_filter]
  constructor
  · rintro ⟨b, ⟨hb, _⟩, hxb⟩
    exact ⟨b, hb, hxb⟩
  · rintro ⟨b, hb, hxb⟩
    refine ⟨b, ⟨hb, ?_⟩, hxb⟩
    by_contra hout
    exact hreads a ha hkeep b (hsub b hb) (Bool.eq_false_iff.mpr hout) x hxb hx

end sweeps

namespace Model

/-! ### Parts -/

/-- The nodes of `part` are those of `m` that are kept, and no value passes between them and other nodes
that may run. -/
structure PartOf (part m : Model) (keep : Node → Bool) : Prop where
  nodes : part.nodes = m.nodes.filter keep
  apart : ∀ a ∈ m.nodes, keep a = true → ∀ b ∈ m.nodes, keep b = false → b.kind ≠ .skip →
    (∀ x ∈ a.outputs, x ∉ b.inputs) ∧ ∀ x ∈ b.outputs, x ∉ a.inputs

namespace PartOf

variable {part m : Model} {keep : Node → Bool}

theorem mem_nodes_iff (h : PartOf part m keep) {n : Node} : n ∈ part.nodes ↔ n ∈ m.nodes ∧ keep n = true := by
  rw [h.nodes, List.mem_filter]

theorem consistent (h : PartOf part m keep) (hm : m.Consistent) : part.Consistent := by
  have hsub : part.nodes.Sublist m.nodes := by
    rw [h.nodes]
    exact List.filter_sublist
  exact ⟨fun n hn => hm.named n (hsub.subset hn), hm.ids_nodup.sublist (hsub.map _),
    hm.outputs_disjoint.sublist hsub, fun n hn => hm.padding_nonneg n (hsub.subset hn)⟩

/-! ### Requirements -/

theorem readers_eq (h : PartOf part m keep) (n : Node) : part.readers n = (m.readers n).filter keep := by
  unfold readers
  cases n.firstOutput? with
  | none => rfl
  | some x =>
      dsimp only
      rw [consumers_eq, consumers_eq, h.nodes]
      induction m.nodes with
      | nil => rfl
      | cons k rest ih =>
          rw [List.flatMap_cons, List.filter_append, ← ih]
          cases hkeep : keep k <;> simp [hkeep]

theorem kind_of_mem_readers (h : PartOf part m keep) {n r : Node} (hn : n ∈ part.nodes)
    (hr : r ∈ m.readers n) (hout : keep r = false) : r.kind = .skip := by
  obtain ⟨hn, hkeep⟩ := h.mem_nodes_iff.mp hn
  by_contra hskip
  have hapart := (h.apart n hn hkeep r (mem_nodes_of_mem_readers hr) hout hskip).1
  unfold readers at hr
  cases hx : n.firstOutput? with
  | none => rw [hx] at hr; cases hr
  | some x =>
      rw [hx] at hr
      exact hapart x (List.mem_of_mem_head? hx) (mem_consumers_iff.mp hr).2

/-- Readers that contribute nothing may be left out. -/
theorem flatten_mapM_filter {α β : Type} {f : α → Option (List β)} {keep : α → Bool} {xs : List α}
    (h : ∀ x ∈ xs, keep x = false → f x = some []) :
    ((xs.filter keep).mapM f).map List.flatten = (xs.mapM f).map List.flatten := by
  induction xs with
  | nil => rfl
  | cons x rest ih =>
      have hrest := ih fun y hy => h y (List.mem_cons_of_mem _ hy)
      cases hkeep : keep x with
      | true =>
          rw [List.filter_cons_of_pos hkeep, List.mapM_cons, List.mapM_cons]
          cases f x with
          | none => rfl
          | some y =>
              revert hrest
              cases (rest.filter keep).mapM f <;> cases rest.mapM f <;> simp
      | false =>
          rw [List.filter_cons_of_neg (Bool.eq_false_iff.mp hkeep), hrest, List.mapM_cons,
            h x List.mem_cons_self hkeep]
          cases rest.mapM f <;> rfl

theorem requirements_eq_of_ne_none (h : PartOf part m keep) (hm : m.Consistent) : ∀ n ∈ m.nodes,
    m.requirements n ≠ none → n ∈ part.nodes → part.requirements n = m.requirements n := by
  refine requirements_induct fun n hn _ ih hpart => ?_
  have hcontribution : ∀ r ∈ (m.readers n).filter keep, part.contribution r = m.contribution r := by
    intro r hr
    obtain ⟨hr, hkeep⟩ := List.mem_filter.mp hr
    unfold contribution
    by_cases htrans : r.kind.isTransparent = true
    · rw [ih r hr htrans (h.mem_nodes_iff.mpr ⟨mem_nodes_of_mem_readers hr, hkeep⟩)]
    · rw [if_neg htrans, if_neg htrans]
  have hskip : ∀ r ∈ m.readers n, keep r = false → m.contribution r = some [] := by
    intro r hr hout
    rw [contribution, if_pos (h.kind_of_mem_readers hpart hr hout)]
  rw [requirements_eq (h.consistent hm) hpart, requirements_eq hm hn, h.readers_eq,
    ← flatten_mapM_filter hskip, mapM_eq_of_forall₂ (List.forall₂_same.mpr hcontribution)]

theorem requirements_ne_none (h : PartOf part m keep) (hm : m.Consistent) : ∀ n ∈ part.nodes,
    part.requirements n ≠ none → m.requirements n ≠ none := by
  refine requirements_induct fun n hn _ ih => ?_
  rw [requirements_ne_none_iff hm (h.mem_nodes_iff.mp hn).1]
  intro r hr htrans
  refine ih r ?_ htrans
  rw [h.readers_eq, List.mem_filter]
  refine ⟨hr, ?_⟩
  by_contra hout
  exact ne_skip_of_isTransparent htrans (h.kind_of_mem_readers hn hr (Bool.eq_false_iff.mpr hout))

theorem requirements_eq (h : PartOf part m keep) (hm : m.Consistent) {n : Node} (hn : n ∈ part.nodes) :
    part.requirements n = m.requirements n := by
  by_cases hcyclic : m.requirements n = none
  · rw [hcyclic]
    by_contra hne
    exact h.requirements_ne_none hm n hn hne hcyclic
  · exact h.requirements_eq_of_ne_none hm n (h.mem_nodes_iff.mp hn).1 hcyclic hn

/-! ### Propagation -/

theorem conflict?_eq (h : PartOf part m keep) (hm : m.Consistent) {n : Node} (hn : n ∈ part.nodes) :
    part.conflict? n = m.conflict? n := by
  rw [conflict?, conflict?, h.requirements_eq hm hn]

theorem isCyclic_eq (h : PartOf part m keep) (hm : m.Consistent) {n : Node} (hn : n ∈ part.nodes) :
    part.propagation.isCyclic n.id = m.propagation.isCyclic n.id := by
  rw [isCyclic_propagation (h.consistent hm) hn, isCyclic_propagation hm (h.mem_nodes_iff.mp hn).1,
    h.requirements_eq hm hn]

theorem outputPadding_eq (h : PartOf part m keep) (hm : m.Consistent) {n : Node} (hn : n ∈ part.nodes)
    (hcyclic : m.propagation.isCyclic n.id = false) :
    part.propagation.outputPadding n.id = m.propagation.outputPadding n.id := by
  have hmem := (h.mem_nodes_iff.mp hn).1
  rw [isCyclic_propagation hm hmem] at hcyclic
  cases hreq : m.requirements n with
  | none => rw [hreq] at hcyclic; cases hcyclic
  | some required =>
      rw [outputPadding_propagation hm hmem hreq,
        outputPadding_propagation (h.consistent hm) hn ((h.requirements_eq hm hn).trans hreq)]

theorem cyclic_eq (h : PartOf part m keep) (hm : m.Consistent) :
    part.propagation.cyclic = m.propagation.cyclic.filter keep := by
  unfold propagation
  dsimp only
  rw [h.nodes]
  exact filter_within fun n hn hkeep => by rw [h.requirements_eq hm (h.mem_nodes_iff.mpr ⟨hn, hkeep⟩)]

/-! ### Schedules -/

section schedules
variable {excluded excluded' : String → Bool}

theorem candidates_eq (h : PartOf part m keep) (hex : ∀ n ∈ part.nodes, excluded' n.id = excluded n.id) :
    part.candidates excluded' = (m.candidates excluded).filter keep := by
  unfold candidates
  rw [h.nodes]
  exact filter_within fun n hn hkeep => by rw [hex n (h.mem_nodes_iff.mpr ⟨hn, hkeep⟩)]

theorem readsWithin (h : PartOf part m keep) (excluded : String → Bool) :
    ReadsWithin keep (m.candidates excluded) := by
  intro a ha hkeep b hb hout
  obtain ⟨hb, hskip⟩ := List.mem_filter.mp hb
  exact (h.apart a (List.mem_of_mem_filter ha) hkeep b hb hout (by simp_all)).2

theorem settle_eq (h : PartOf part m keep) (hex : ∀ n ∈ part.nodes, excluded' n.id = excluded n.id) :
    part.runnable excluded' = (m.runnable excluded).filter keep ∧
      (settle [] (part.candidates excluded')).waiting =
        (settle [] (m.candidates excluded)).waiting.filter keep := by
  have hsettle := settle_filter (fun _ hn => hn) (h.readsWithin excluded) fun _ _ _ x _ =>
    Iff.rfl (a := x ∈ [])
  rw [← h.candidates_eq hex] at hsettle
  exact hsettle

/-- Of the values that the part produces, it reads those that the whole reads. -/
theorem mem_inputs_filter (h : PartOf part m keep) {nodes : List Node}
    (hsub : ∀ b ∈ nodes, b ∈ m.nodes ∧ b.kind ≠ .skip) {n : Node} (hn : n ∈ m.nodes) (hkeep : keep n = true)
    {x : String} (hx : x ∈ n.outputs) :
    x ∈ (nodes.filter keep).flatMap Node.inputs ↔ x ∈ nodes.flatMap Node.inputs := by
  simp only [List.mem_flatMap, List.mem_filter]
  constructor
  · rintro ⟨b, ⟨hb, _⟩, hxb⟩
    exact ⟨b, hb, hxb⟩
  · rintro ⟨b, hb, hxb⟩
    refine ⟨b, ⟨hb, ?_⟩, hxb⟩
    by_contra hout
    obtain ⟨hmem, hskip⟩ := hsub b hb
    exact (h.apart n hn hkeep b hmem (Bool.eq_false_iff.mpr hout) hskip).1 x hx hxb

theorem isDeadInput_eq (h : PartOf part m keep) (hex : ∀ n ∈ part.nodes, excluded' n.id = excluded n.id)
    {n : Node} (hn : n ∈ m.nodes) (hkeep : keep n = true) :
    n.isDeadInput (part.valuesRead excluded') = n.isDeadInput (m.valuesRead excluded) := by
  unfold valuesRead
  rw [(h.settle_eq hex).1, Bool.eq_iff_iff, Node.isDeadInput_iff, Node.isDeadInput_iff]
  refine and_congr_right fun _ => forall₂_congr fun x hx => not_congr ?_
  refine h.mem_inputs_filter (fun b hb => ?_) hn hkeep (List.mem_of_mem_head? hx)
  obtain ⟨hmem, hskip, _⟩ := mem_of_mem_runnable hb
  exact ⟨hmem, hskip⟩

/-- The order of a part is that of the whole, restricted to it. -/
theorem order (h : PartOf part m keep) (hex : ∀ n ∈ part.nodes, excluded' n.id = excluded n.id) :
    (scheduleWithout part excluded').order = (scheduleWithout m excluded).order.filter keep := by
  rw [order_eq, order_eq, (h.settle_eq hex).1]
  exact filter_within fun n hn hkeep => by rw [h.isDeadInput_eq hex (mem_of_mem_runnable hn).1 hkeep]

end schedules

/-! ### Nodes left out -/

/-- The test `keeps` picks out what is reported of the nodes that are kept. -/
def Reports (m : Model) (keep : Node → Bool) (keeps : Dropped → Bool) : Prop :=
  ∀ n ∈ m.nodes, ∀ reason, keeps ⟨n.id, n.kind, reason⟩ = keep n

section reports
variable {keeps : Dropped → Bool} {excluded excluded' : String → Bool}

theorem Reports.filter_map (hr : Reports m keep keeps) {nodes : List Node} (hsub : ∀ n ∈ nodes, n ∈ m.nodes)
    (reason : Node → DropReason) :
    (nodes.map fun n => (⟨n.id, n.kind, reason n⟩ : Dropped)).filter keeps =
      (nodes.filter keep).map fun n => ⟨n.id, n.kind, reason n⟩ := by
  rw [List.filter_map]
  exact congrArg _ (List.filter_congr fun n hn => hr n (hsub n hn) (reason n))

theorem propagation_dropped (h : PartOf part m keep) (hm : m.Consistent) (hr : Reports m keep keeps) :
    part.propagation.dropped = m.propagation.dropped.filter keeps := by
  have hsub : ∀ n ∈ m.propagation.cyclic, n ∈ m.nodes := fun n hn => List.mem_of_mem_filter hn
  unfold Propagation.dropped
  rw [h.cyclic_eq hm, hr.filter_map hsub fun _ => .paddingCycle]

theorem missing_eq (h : PartOf part m keep) (hex : ∀ n ∈ part.nodes, excluded' n.id = excluded n.id)
    {n : Node} (hn : n ∈ m.candidates excluded) (hkeep : keep n = true) :
    n.missing (settle [] (part.candidates excluded')).available =
      n.missing (settle [] (m.candidates excluded)).available := by
  have htaken : (settle [] (part.candidates excluded')).taken =
      (settle [] (m.candidates excluded)).taken.filter keep := (h.settle_eq hex).1
  rw [settle_available, settle_available, htaken, List.nil_append, List.nil_append]
  exact (agreeWithin_outputs (h.readsWithin excluded) fun k hk =>
    (settle_perm [] _).subset (List.mem_append_left _ hk)).missing_eq hn hkeep

theorem dropped (h : PartOf part m keep) (hex : ∀ n ∈ part.nodes, excluded' n.id = excluded n.id)
    (hr : Reports m keep keeps) :
    (scheduleWithout part excluded').dropped = (scheduleWithout m excluded).dropped.filter keeps := by
  obtain ⟨hrunnable, hwaiting⟩ := h.settle_eq hex
  have hcandidate : ∀ n ∈ (settle [] (m.candidates excluded)).waiting, n ∈ m.candidates excluded :=
    fun n hn => (settle_perm [] _).subset (List.mem_append_right _ hn)
  rw [schedule_dropped, schedule_dropped, List.filter_append, hwaiting, hrunnable]
  rw [hr.filter_map (fun n hn => List.mem_of_mem_filter (hcandidate n hn)),
    hr.filter_map (fun n hn => (mem_of_mem_runnable (List.mem_of_mem_filter hn)).1)]
  congr 1
  · refine List.map_congr_left fun n hn => ?_
    obtain ⟨hn, hkeep⟩ := List.mem_filter.mp hn
    rw [h.missing_eq hex (hcandidate n hn) hkeep]
  · exact congrArg _ (filter_within fun n hn hkeep => h.isDeadInput_eq hex (mem_of_mem_runnable hn).1 hkeep)

end reports

end PartOf
end Model
end NetLowering
