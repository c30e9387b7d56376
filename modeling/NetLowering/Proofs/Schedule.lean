import NetLowering.Proofs.Reachable
import NetLowering.Schedule

/-! # What a schedule keeps

The nodes that the sweeps take are ready in the order they are taken (`settle_ready`), and nodes are
neither lost nor repeated (`settle_perm`). Leaving out inputs nobody reads can break the first: an
input is left out when its *first* output is not read, whatever becomes of the others. So a schedule
is a `ClosedOrder` iff no input was left out that way with an output still wanted
(`closedOrder_iff`), and always if the inputs have one output each (`closedOrder_of_single`). -/

namespace NetLowering

/-- Every input of a node is an output of a node that stands strictly before it. -/
def ClosedOrder (order : List Node) : Prop :=
  ∀ pre n post, order = pre ++ n :: post → ∀ x ∈ n.inputs, ∃ p ∈ pre, x ∈ p.outputs

/-- Every node has its inputs among the values available when its turn comes. -/
def ReadyOrder : List String → List Node → Prop
  | _, [] => True
  | available, n :: rest => (∀ x ∈ n.inputs, x ∈ available) ∧ ReadyOrder (available ++ n.outputs) rest

theorem ReadyOrder.append {available : List String} {xs ys : List Node} (hx : ReadyOrder available xs)
    (hy : ReadyOrder (available ++ xs.flatMap Node.outputs) ys) : ReadyOrder available (xs ++ ys) := by
  induction xs generalizing available with
  | nil => simpa using hy
  | cons n rest ih =>
      refine ⟨hx.1, ih hx.2 ?_⟩
      rw [List.flatMap_cons, ← List.append_assoc] at hy
      exact hy

theorem ReadyOrder.available_or_before {available : List String} {pre post : List Node} {n : Node}
    (h : ReadyOrder available (pre ++ n :: post)) {x : String} (hx : x ∈ n.inputs) :
    x ∈ available ∨ ∃ p ∈ pre, x ∈ p.outputs := by
  induction pre generalizing available with
  | nil => exact .inl (h.1 x hx)
  | cons p rest ih =>
      rcases ih h.2 with hav | ⟨q, hq, hxq⟩
      · rcases List.mem_append.mp hav with hav | hout
        · exact .inl hav
        · exact .inr ⟨p, List.mem_cons_self, hout⟩
      · exact .inr ⟨q, List.mem_cons_of_mem _ hq, hxq⟩

theorem ReadyOrder.closedOrder {order : List Node} (h : ReadyOrder [] order) : ClosedOrder order := by
  intro pre n post heq x hx
  rw [heq] at h
  rcases h.available_or_before hx with hav | hbefore
  · cases hav
  · exact hbefore

/-! ### Sweeps -/

theorem Node.isReady_iff {n : Node} {available : List String} :
    n.isReady available = true ↔ ∀ x ∈ n.inputs, x ∈ available := by
  simp [Node.isReady]

/-- Whether a node is ready depends on the values it reads alone. -/
theorem Node.isReady_congr {n : Node} {available available' : List String}
    (h : ∀ x ∈ n.inputs, x ∈ available' ↔ x ∈ available) : n.isReady available' = n.isReady available := by
  rw [Bool.eq_iff_iff, Node.isReady_iff, Node.isReady_iff]
  exact forall₂_congr h

theorem Node.missing_congr {n : Node} {available available' : List String}
    (h : ∀ x ∈ n.inputs, x ∈ available' ↔ x ∈ available) : n.missing available' = n.missing available := by
  refine List.filter_congr fun x hx => ?_
  rw [List.contains_eq_mem, List.contains_eq_mem]
  simp only [h x hx]

theorem sweep_available (available : List String) (nodes : List Node) :
    (sweep available nodes).available =
      available ++ (sweep available nodes).taken.flatMap Node.outputs := by
  fun_induction sweep available nodes with
  | case1 available => simp
  | case2 available n rest _ s ih =>
      simp only [List.flatMap_cons, ← List.append_assoc]
      exact ih
  | case3 available n rest _ s ih => exact ih

theorem sweep_ready (available : List String) (nodes : List Node) :
    ReadyOrder available (sweep available nodes).taken := by
  fun_induction sweep available nodes with
  | case1 available => trivial
  | case2 available n rest hready s ih => exact ⟨Node.isReady_iff.mp hready, ih⟩
  | case3 available n rest _ s ih => exact ih

theorem sweep_perm (available : List String) (nodes : List Node) :
    ((sweep available nodes).taken ++ (sweep available nodes).waiting).Perm nodes := by
  fun_induction sweep available nodes with
  | case1 available => exact .refl _
  | case2 available n rest _ s ih => exact ih.cons n
  | case3 available n rest _ s ih => exact List.perm_middle.trans (ih.cons n)

theorem settle_ready (available : List String) (waiting : List Node) :
    ReadyOrder available (settle available waiting).taken := by
  fun_induction settle available waiting with
  | case1 available waiting _ => exact sweep_ready available waiting
  | case2 available waiting _ later ih =>
      refine (sweep_ready available waiting).append ?_
      rw [← sweep_available]
      exact ih

/-- Repeated sweeps neither lose nor repeat a node. -/
theorem settle_perm (available : List String) (waiting : List Node) :
    ((settle available waiting).taken ++ (settle available waiting).waiting).Perm waiting := by
  fun_induction settle available waiting with
  | case1 available waiting _ => exact sweep_perm available waiting
  | case2 available waiting _ later ih =>
      show (((sweep available waiting).taken ++ later.taken) ++ later.waiting).Perm waiting
      rw [List.append_assoc]
      exact (ih.append_left _).trans (sweep_perm available waiting)

theorem sweep_not_ready {available : List String} {nodes : List Node}
    (h : (sweep available nodes).taken = []) : ∀ n ∈ (sweep available nodes).waiting,
      n.isReady available = false := by
  fun_induction sweep available nodes with
  | case1 available => intro n hn; cases hn
  | case2 available n rest _ s ih => cases h
  | case3 available n rest hready s ih =>
      intro k hk
      rcases List.mem_cons.mp hk with rfl | hk
      · exact Bool.eq_false_iff.mpr hready
      · exact ih h k hk

theorem settle_available (available : List String) (waiting : List Node) :
    (settle available waiting).available =
      available ++ (settle available waiting).taken.flatMap Node.outputs := by
  fun_induction settle available waiting with
  | case1 available waiting _ => exact sweep_available available waiting
  | case2 available waiting _ later ih =>
      have hlater : later.available = _ ++ later.taken.flatMap Node.outputs := ih
      show later.available = available ++ ((sweep available waiting).taken ++ later.taken).flatMap _
      rw [hlater, List.flatMap_append, ← List.append_assoc, ← sweep_available]

theorem settle_not_ready (available : List String) (waiting : List Node) :
    ∀ n ∈ (settle available waiting).waiting,
      n.isReady (settle available waiting).available = false := by
  fun_induction settle available waiting with
  | case1 available waiting hnone =>
      rw [sweep_available, hnone, List.flatMap_nil, List.append_nil]
      exact sweep_not_ready hnone
  | case2 available waiting _ later ih => exact ih

/-! ### Sweeps taken apart -/

/-- Of a list without repetitions that is parted in two, one part has what the other has not. -/
theorem mem_right_iff_of_perm_append {α : Type} {left right all : List α} (h : (left ++ right).Perm all)
    (hnodup : all.Nodup) {a : α} : a ∈ right ↔ a ∈ all ∧ a ∉ left := by
  have hdisjoint := List.disjoint_of_nodup_append (h.nodup_iff.mpr hnodup)
  rw [← h.mem_iff, List.mem_append]
  constructor
  · intro ha
    exact ⟨.inr ha, fun hleft => hdisjoint hleft ha⟩
  · rintro ⟨hleft | ha, hnot⟩
    · exact absurd hleft hnot
    · exact ha

section sweeps
variable {available later last : List String} {n : Node} {xs ys taken waiting taken' waiting' : List Node}

theorem sweep_append (hx : sweep available xs = ⟨taken, waiting, later⟩)
    (hy : sweep later ys = ⟨taken', waiting', last⟩) :
    sweep available (xs ++ ys) = ⟨taken ++ taken', waiting ++ waiting', last⟩ := by
  induction xs generalizing available taken waiting with
  | nil =>
      cases hx
      exact hy
  | cons n rest ih =>
      rw [sweep] at hx
      rw [List.cons_append, sweep]
      split at hx
      · rename_i hn
        cases hx
        rw [if_pos hn, ih rfl]
        rfl
      · rename_i hn
        cases hx
        rw [if_neg hn, ih rfl]
        rfl

theorem sweep_cons_of_ready (hn : n.isReady available = true)
    (hx : sweep (available ++ n.outputs) xs = ⟨taken, waiting, later⟩) :
    sweep available (n :: xs) = ⟨n :: taken, waiting, later⟩ := by
  rw [sweep, if_pos hn, hx]

theorem sweep_cons_of_not_ready (hn : n.isReady available = false)
    (hx : sweep available xs = ⟨taken, waiting, later⟩) :
    sweep available (n :: xs) = ⟨taken, n :: waiting, later⟩ := by
  rw [sweep, if_neg (by rw [hn]; exact Bool.false_ne_true), hx]

theorem settle_of_nil (hx : sweep available xs = ⟨[], waiting, later⟩) :
    settle available xs = ⟨[], waiting, later⟩ := by
  rw [settle, hx, if_pos rfl]

theorem settle_of_sweep (hx : sweep available xs = ⟨taken, waiting, later⟩) (hne : taken ≠ []) :
    settle available xs = ⟨taken ++ (settle later waiting).taken, (settle later waiting).waiting,
      (settle later waiting).available⟩ := by
  rw [settle, hx, if_neg hne]

theorem sweep_waiting_lt (hx : sweep available xs = ⟨taken, waiting, later⟩) (hne : taken ≠ []) :
    waiting.length < xs.length := by
  have hsum := sweep_length available xs
  have hpos := List.length_pos_iff.mpr hne
  rw [hx] at hsum
  dsimp only at hsum
  omega

theorem perm_of_sweep (hx : sweep available xs = ⟨taken, waiting, later⟩) :
    (taken ++ waiting).Perm xs := by
  have hperm := sweep_perm available xs
  rwa [hx] at hperm

theorem ids_waiting_nodup (hx : sweep available xs = ⟨taken, waiting, later⟩)
    (hids : (xs.map Node.id).Nodup) : (waiting.map Node.id).Nodup := by
  have hall := ((perm_of_sweep hx).map Node.id).nodup_iff.mpr hids
  rw [List.map_append] at hall
  exact hall.of_append_right

theorem available_of_sweep (hx : sweep available xs = ⟨taken, waiting, later⟩) :
    later = available ++ taken.flatMap Node.outputs := by
  have havailable := sweep_available available xs
  rwa [hx] at havailable

end sweeps

/-! ### Schedules -/

namespace Model

/-- The nodes of a model that can run at all, inputs nobody reads included, in the order they become
ready. -/
def runnable (m : Model) (excluded : String → Bool) : List Node :=
  (settle [] (m.nodes.filter fun n => n.kind ≠ .skip && !excluded n.id)).taken

/-- The values that runnable nodes read. -/
def valuesRead (m : Model) (excluded : String → Bool) : List String :=
  (m.runnable excluded).flatMap Node.inputs

/-- The nodes that a schedule may take. -/
def candidates (m : Model) (excluded : String → Bool) : List Node :=
  m.nodes.filter fun n => n.kind ≠ .skip && !excluded n.id

theorem schedule_dropped {m : Model} {excluded : String → Bool} : (scheduleWithout m excluded).dropped =
    ((settle [] (m.candidates excluded)).waiting.map fun n =>
      ⟨n.id, n.kind, .unsatisfiableInput (n.missing (settle [] (m.candidates excluded)).available)⟩) ++
      ((m.runnable excluded).filter fun n => n.isDeadInput (m.valuesRead excluded)).map fun n =>
        ⟨n.id, n.kind, .deadInput⟩ := rfl

end Model

variable {m : Model} {excluded : String → Bool}

theorem order_eq : (scheduleWithout m excluded).order =
    (m.runnable excluded).filter fun n => !n.isDeadInput (m.valuesRead excluded) := rfl

theorem mem_order_iff {n : Node} : n ∈ (scheduleWithout m excluded).order ↔
    n ∈ m.runnable excluded ∧ n.isDeadInput (m.valuesRead excluded) = false := by
  rw [order_eq, List.mem_filter, Bool.not_eq_true']

theorem mem_of_mem_runnable {n : Node} (h : n ∈ m.runnable excluded) :
    n ∈ m.nodes ∧ n.kind ≠ .skip ∧ excluded n.id = false := by
  have hmem := (settle_perm [] _).subset (List.mem_append_left _ h)
  simpa [List.mem_filter] using hmem

theorem mem_of_mem_order {n : Node} (h : n ∈ (scheduleWithout m excluded).order) :
    n ∈ m.nodes ∧ n.kind ≠ .skip ∧ excluded n.id = false :=
  mem_of_mem_runnable (mem_order_iff.mp h).1

/-- Whatever can run at all is run once its inputs are there. -/
theorem mem_runnable_of_inputs {n : Node} (hn : n ∈ m.nodes) (hskip : n.kind ≠ .skip)
    (hkept : excluded n.id = false)
    (hinputs : ∀ x ∈ n.inputs, ∃ p ∈ m.runnable excluded, x ∈ p.outputs) :
    n ∈ m.runnable excluded := by
  have hmem : n ∈ m.nodes.filter fun n => n.kind ≠ .skip && !excluded n.id := by
    rw [List.mem_filter]
    exact ⟨hn, by simp [hskip, hkept]⟩
  rcases List.mem_append.mp ((settle_perm [] _).symm.subset hmem) with htaken | hwaiting
  · exact htaken
  · have hnot := settle_not_ready [] _ n hwaiting
    rw [settle_available, List.nil_append, Bool.eq_false_iff, ne_eq, Node.isReady_iff] at hnot
    exact absurd (fun x hx => List.mem_flatMap.mpr (hinputs x hx)) hnot

theorem runnable_closedOrder : ClosedOrder (m.runnable excluded) := (settle_ready [] _).closedOrder

theorem runnable_ids_nodup (hm : m.Consistent) (excluded : String → Bool) :
    ((m.runnable excluded).map Node.id).Nodup := by
  have hwaiting : ((m.nodes.filter fun n => n.kind ≠ .skip && !excluded n.id).map Node.id).Nodup :=
    hm.ids_nodup.sublist (List.filter_sublist.map _)
  have hall := ((settle_perm [] _).map Node.id).nodup_iff.mpr hwaiting
  rw [List.map_append] at hall
  exact hall.of_append_left

theorem order_ids_nodup (hm : m.Consistent) (excluded : String → Bool) :
    ((scheduleWithout m excluded).order.map Node.id).Nodup :=
  (runnable_ids_nodup hm excluded).sublist (List.filter_sublist.map _)

/-! ### Inputs left out -/

theorem Node.isDeadInput_iff {n : Node} {read : List String} :
    n.isDeadInput read = true ↔ n.kind = .input ∧ ∀ x, n.outputs.head? = some x → x ∉ read := by
  unfold Node.isDeadInput Node.firstOutput?
  cases n.outputs.head? with
  | none => simp
  | some x => simp

/-- The node was left out of the schedule as an input nobody reads. -/
def Schedule.LeavesOut (s : Schedule) (n : Node) : Prop := ⟨n.id, n.kind, .deadInput⟩ ∈ s.dropped

theorem leavesOut_iff (hm : m.Consistent) {d : Node} (hd : d ∈ m.nodes) :
    (scheduleWithout m excluded).LeavesOut d ↔
      d ∈ m.runnable excluded ∧ d.isDeadInput (m.valuesRead excluded) = true := by
  unfold Schedule.LeavesOut scheduleWithout
  simp only [List.mem_append, List.mem_map, List.mem_filter, Dropped.mk.injEq, reduceCtorEq,
    and_false, exists_false, false_or, and_true]
  constructor
  · rintro ⟨a, ⟨ha, hdead⟩, hid, _⟩
    rw [← hm.eq_of_id_eq (mem_of_mem_runnable ha).1 hd hid]
    exact ⟨ha, hdead⟩
  · rintro ⟨hmem, hdead⟩
    exact ⟨d, ⟨hmem, hdead⟩, rfl, rfl⟩

/-- An input was left out although a scheduled node reads one of its outputs. By the rule for leaving
out, that output is not its first. -/
def Schedule.LosesInput (m : Model) (s : Schedule) : Prop :=
  ∃ d ∈ m.nodes, s.LeavesOut d ∧ ∃ x ∈ d.outputs.tail, ∃ n ∈ s.order, x ∈ n.inputs

/-- A value that a scheduled node reads is an output of a scheduled node before it, or a later output
of an input that was left out. -/
theorem before_or_lost {pre post : List Node} {n : Node}
    (heq : (scheduleWithout m excluded).order = pre ++ n :: post) {x : String} (hx : x ∈ n.inputs) :
    (∃ p ∈ pre, x ∈ p.outputs) ∨ ∃ d ∈ m.runnable excluded,
      d.isDeadInput (m.valuesRead excluded) = true ∧ x ∈ d.outputs.tail := by
  rw [order_eq, List.filter_eq_append_iff] at heq
  obtain ⟨all, later, hsplit, rfl, hlater⟩ := heq
  obtain ⟨skipped, post', rfl, hskipped, _, rfl⟩ := List.filter_eq_cons_iff.mp hlater
  have hread : x ∈ m.valuesRead excluded := by
    unfold Model.valuesRead
    rw [hsplit]
    exact List.mem_flatMap.mpr ⟨n, by simp, hx⟩
  have hall : m.runnable excluded = (all ++ skipped) ++ n :: post' := by
    rw [hsplit, List.append_assoc]
  obtain ⟨p, hp, hxp⟩ := runnable_closedOrder _ _ _ hall x hx
  have hrun : p ∈ m.runnable excluded := by
    rw [hall]
    exact List.mem_append_left _ hp
  cases hdead : p.isDeadInput (m.valuesRead excluded) with
  | true =>
      refine .inr ⟨p, hrun, hdead, ?_⟩
      -- `x` is read, so it is not the output by which `p` was found dead
      have hfirst := (Node.isDeadInput_iff.mp hdead).2
      cases hout : p.outputs with
      | nil => rw [hout] at hxp; cases hxp
      | cons y rest =>
          rw [hout] at hxp hfirst
          rcases List.mem_cons.mp hxp with rfl | hrest
          · exact absurd hread (hfirst x rfl)
          · exact hrest
  | false =>
      rcases List.mem_append.mp hp with hp | hp
      · exact .inl ⟨p, List.mem_filter.mpr ⟨hp, by simp [hdead]⟩, hxp⟩
      · exact absurd hdead (by simpa using hskipped p hp)

/-- A value that a scheduled node reads comes from before it, if it comes from a scheduled node at all. -/
theorem mem_before_of_mem_outputs (hm : m.Consistent) {pre post : List Node} {n p : Node}
    (heq : (scheduleWithout m excluded).order = pre ++ n :: post) {x : String} (hx : x ∈ n.inputs)
    (hp : p ∈ (scheduleWithout m excluded).order) (hxp : x ∈ p.outputs) : p ∈ pre := by
  have hmem (k : Node) (hk : k ∈ pre) : k ∈ (scheduleWithout m excluded).order := by
    rw [heq]; exact List.mem_append_left _ hk
  rcases before_or_lost heq hx with ⟨q, hq, hxq⟩ | ⟨d, hd, hdead, hxd⟩
  · have hsame := hm.eq_of_mem_outputs (mem_of_mem_order hp).1 (mem_of_mem_order (hmem q hq)).1 hxp hxq
    rw [hsame]
    exact hq
  · have hsame := hm.eq_of_mem_outputs (mem_of_mem_order hp).1 (mem_of_mem_runnable hd).1 hxp
      (List.mem_of_mem_tail hxd)
    rw [← hsame, (mem_order_iff.mp hp).2] at hdead
    cases hdead

theorem not_mem_outputs_of_mem_inputs (hm : m.Consistent) {n : Node}
    (hn : n ∈ (scheduleWithout m excluded).order) {x : String} (hx : x ∈ n.inputs) : x ∉ n.outputs := by
  intro hxn
  obtain ⟨pre, post, heq⟩ := List.append_of_mem hn
  have hpre := mem_before_of_mem_outputs hm heq hx hn hxn
  have hids := order_ids_nodup hm excluded
  rw [heq, List.map_append, List.nodup_append] at hids
  exact hids.2.2 _ (List.mem_map_of_mem hpre) _ List.mem_cons_self rfl

/-- A schedule is closed unless it lost an input. -/
theorem closedOrder_iff (hm : m.Consistent) : ClosedOrder (scheduleWithout m excluded).order ↔
    ¬ (scheduleWithout m excluded).LosesInput m := by
  constructor
  · rintro hclosed ⟨d, hd, hleft, x, hxd, n, hn, hx⟩
    obtain ⟨pre, post, heq⟩ := List.append_of_mem hn
    obtain ⟨p, hp, hxp⟩ := hclosed pre n post heq x hx
    have hpo : p ∈ (scheduleWithout m excluded).order := by
      rw [heq]; exact List.mem_append_left _ hp
    have hsame := hm.eq_of_mem_outputs (mem_of_mem_order hpo).1 hd hxp (List.mem_of_mem_tail hxd)
    have hdead := ((leavesOut_iff hm hd).mp hleft).2
    rw [← hsame, (mem_order_iff.mp hpo).2] at hdead
    cases hdead
  · intro hkeep pre n post heq x hx
    rcases before_or_lost heq hx with hbefore | ⟨d, hd, hdead, hxd⟩
    · exact hbefore
    · have hdm := (mem_of_mem_runnable hd).1
      refine absurd ⟨d, hdm, (leavesOut_iff hm hdm).mpr ⟨hd, hdead⟩, x, hxd, n, ?_, hx⟩ hkeep
      rw [heq]; simp

/-- A model whose nodes have at most one output is always scheduled in closed order. -/
theorem closedOrder_of_single (hm : m.Consistent) (hone : ∀ n ∈ m.nodes, n.outputs.length ≤ 1) :
    ClosedOrder (scheduleWithout m excluded).order := by
  rw [closedOrder_iff hm]
  rintro ⟨d, hd, _, x, hx, _⟩
  have htail : d.outputs.tail = [] := by
    apply List.eq_nil_of_length_eq_zero
    rw [List.length_tail]
    have := hone d hd
    omega
  rw [htail] at hx
  cases hx

end NetLowering
