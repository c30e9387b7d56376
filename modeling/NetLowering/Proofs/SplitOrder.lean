import NetLowering.Proofs.Schedule
import NetLowering.Proofs.Splitting

/-! # The order after a split

A node that is split in two is scheduled in two steps. Until its first half is ready, both sweeps take the
same nodes. From then on the second half is ready when the whole node was, for all it lacks is the link, and
other nodes never ask for the link. So the second half comes where the whole node came, the first half may
come earlier, and nothing else moves: `Splits.settle_split` says so of the sweeps, and
`Splits.scheduled` of the schedule, which leaves out the same nodes for the same reasons. -/

namespace NetLowering

/-! ### Sweeps over related nodes -/

/-- The node may come in the place of the other: it gives the same outputs, and is ready when the other
is, whatever becomes available. -/
def Node.Replaces (n' n : Node) (available available' : List String) : Prop :=
  n'.outputs = n.outputs ∧ ∀ more, n'.isReady (available' ++ more) = n.isReady (available ++ more)

theorem Node.Replaces.later {n n' : Node} {available available' : List String}
    (h : n'.Replaces n available available') (new : List String) :
    n'.Replaces n (available ++ new) (available' ++ new) := by
  refine ⟨h.1, fun more => ?_⟩
  rw [List.append_assoc, List.append_assoc]
  exact h.2 (new ++ more)

section maps
variable {φ : Node → Node} {available available' later : List String} {nodes taken waiting : List Node}

theorem sweep_map (h : ∀ n ∈ nodes, (φ n).Replaces n available available')
    (hs : sweep available nodes = ⟨taken, waiting, later⟩) : sweep available' (nodes.map φ) =
      ⟨taken.map φ, waiting.map φ, available' ++ taken.flatMap Node.outputs⟩ := by
  induction nodes generalizing available available' taken waiting with
  | nil =>
      cases hs
      rw [List.flatMap_nil, List.append_nil]
      rfl
  | cons n rest ih =>
      obtain ⟨hout, hready⟩ := h n List.mem_cons_self
      have hrest := fun k hk => h k (List.mem_cons_of_mem n hk)
      have hnow := hready []
      rw [List.append_nil, List.append_nil] at hnow
      rw [sweep] at hs
      rw [List.map_cons]
      split at hs
      · rename_i hn
        cases hs
        have htail := ih (fun k hk => (hrest k hk).later n.outputs) rfl
        rw [← hout] at htail
        rw [sweep_cons_of_ready (hnow.trans hn) htail, List.flatMap_cons, hout, List.append_assoc]
        rfl
      · rename_i hn
        cases hs
        exact sweep_cons_of_not_ready (hnow.trans (by simpa using hn)) (ih hrest rfl)

theorem settle_map (h : ∀ n ∈ nodes, (φ n).Replaces n available available') :
    (settle available' (nodes.map φ)).taken = (settle available nodes).taken.map φ ∧
      (settle available' (nodes.map φ)).waiting = (settle available nodes).waiting.map φ := by
  induction hlen : nodes.length using Nat.strongRecOn generalizing nodes available available' with
  | ind len ih =>
      cases hs : sweep available nodes with
      | mk taken waiting later =>
          have hs' := sweep_map h hs
          have hlater := available_of_sweep hs
          by_cases hnone : taken = []
          · subst hnone
            rw [settle_of_nil hs, settle_of_nil hs']
            exact ⟨rfl, rfl⟩
          · obtain ⟨htaken, hwaiting⟩ := ih _ (hlen ▸ sweep_waiting_lt hs hnone)
              (fun k hk => hlater ▸ (h k ((perm_of_sweep hs).subset (List.mem_append_right _ hk))).later _) rfl
            rw [settle_of_sweep hs hnone, settle_of_sweep hs' (by simpa using hnone)]
            dsimp only
            rw [htaken, hwaiting, List.map_append]
            exact ⟨rfl, rfl⟩

end maps

/-! ### Values but for the link -/

/-- The lists hold the same values, but for `w`. -/
def AgreeOff (w : String) (xs ys : List String) : Prop := ∀ z, z ≠ w → (z ∈ ys ↔ z ∈ xs)

section links
variable {w : String} {available available' : List String} {nodes : List Node}

theorem AgreeOff.append (h : AgreeOff w available available') (more : List String) :
    AgreeOff w (available ++ more) (available' ++ more) := by
  intro z hz
  rw [List.mem_append, List.mem_append, h z hz]

theorem Node.isReady_of_agreeOff {n : Node} (hn : w ∉ n.inputs) (h : AgreeOff w available available') :
    n.isReady available' = n.isReady available :=
  Node.isReady_congr fun z hz => h z fun heq => hn (heq ▸ hz)

theorem Node.missing_of_agreeOff {n : Node} (hn : w ∉ n.inputs) (h : AgreeOff w available available') :
    n.missing available' = n.missing available :=
  Node.missing_congr fun z hz => h z fun heq => hn (heq ▸ hz)

theorem Node.replaces_self {n : Node} (hn : w ∉ n.inputs) (h : AgreeOff w available available') :
    n.Replaces n available available' :=
  ⟨rfl, fun more => Node.isReady_of_agreeOff hn (h.append more)⟩

/-- Nodes that do not read the link are taken alike with and without it. -/
theorem sweep_of_agreeOff {later : List String} {taken waiting : List Node}
    (hread : ∀ n ∈ nodes, w ∉ n.inputs) (h : AgreeOff w available available')
    (hs : sweep available nodes = ⟨taken, waiting, later⟩) :
    ∃ later', sweep available' nodes = ⟨taken, waiting, later'⟩ ∧ AgreeOff w later later' := by
  have hs' := sweep_map (φ := id) (fun n hn => Node.replaces_self (hread n hn) h) hs
  rw [List.map_id, List.map_id, List.map_id] at hs'
  refine ⟨_, hs', ?_⟩
  rw [available_of_sweep hs]
  exact h.append _

theorem settle_of_agreeOff (hread : ∀ n ∈ nodes, w ∉ n.inputs) (h : AgreeOff w available available') :
    (settle available' nodes).taken = (settle available nodes).taken ∧
      (settle available' nodes).waiting = (settle available nodes).waiting := by
  have hs := settle_map (φ := id) fun n hn => Node.replaces_self (hread n hn) h
  rwa [List.map_id, List.map_id, List.map_id] at hs

end links

namespace Model

/-! ### The two halves -/

/-- Two sweeps take the same nodes, with `u` and `v` for `c`: `v` where `c` was taken and `u` no later. If
`u` reads all that `c` reads, `v` follows at once. -/
structure TakenApart (c u v : Node) (s s' : Sweep) (before middle after : List Node) : Prop where
  taken : s.taken = before ++ (middle ++ c :: after)
  taken' : s'.taken = before ++ u :: (middle ++ v :: after)
  waiting : s'.waiting = s.waiting
  direct : (∀ z ∈ c.inputs, z ∈ u.inputs) → middle = []

/-- The nodes with `v` in the place of `c`. -/
def putFor (c v k : Node) : Node := if k.id = c.id then v else k

theorem map_putFor_of_ne {c v : Node} {nodes : List Node} (h : ∀ k ∈ nodes, k.id ≠ c.id) :
    nodes.map (putFor c v) = nodes := by
  conv_rhs => rw [← List.map_id nodes]
  exact List.map_congr_left fun k hk => if_neg (h k hk)

theorem map_putFor {c v : Node} {before after : List Node}
    (hids : ((before ++ c :: after).map Node.id).Nodup) :
    (before ++ c :: after).map (putFor c v) = before ++ v :: after := by
  rw [List.map_append, List.map_cons, List.nodup_append, List.nodup_cons] at hids
  rw [List.map_append, List.map_cons, map_putFor_of_ne, map_putFor_of_ne, putFor, if_pos rfl]
  · intro k hk heq
    exact hids.2.1.1 (heq ▸ List.mem_map_of_mem hk)
  · intro k hk heq
    exact hids.2.2 _ (List.mem_map_of_mem hk) _ List.mem_cons_self heq

namespace Splits

variable {m m' : Model} {pre post : List Node} {c u v : Node} {w : String}
variable (h : m.Splits m' pre c u v post w)
include h

theorem ne_link {z : String} (hz : z ∈ c.inputs) : z ≠ w := by
  rintro rfl
  exact (h.fresh c h.mem_c).1 hz

theorem isReady_u {available : List String} (hc : c.isReady available = true) :
    u.isReady available = true := by
  rw [Node.isReady_iff] at hc ⊢
  intro z hz
  have hne : z ≠ w := by
    rintro rfl
    exact h.unread hz
  exact hc z ((h.mem_inputs_iff hne).mp (.inl hz))

theorem isReady_v {available available' : List String} (hu : u.isReady available = true)
    (hagree : AgreeOff w available available') (hw : w ∈ available') :
    v.isReady available' = c.isReady available := by
  rw [Node.isReady_iff] at hu
  rw [Bool.eq_iff_iff, Node.isReady_iff, Node.isReady_iff]
  constructor
  · intro hv z hz
    have hne := h.ne_link hz
    rcases (h.mem_inputs_iff hne).mpr hz with hzu | hzv
    · exact hu z hzu
    · exact (hagree z hne).mp (hv z hzv)
  · intro hc z hz
    by_cases hne : z = w
    · rw [hne]; exact hw
    · exact (hagree z hne).mpr (hc z ((h.mem_inputs_iff hne).mp (.inr hz)))

theorem isReady_v_of_unlinked {available : List String} (hw : w ∉ available) :
    v.isReady available = false := by
  rw [Bool.eq_false_iff, ne_eq, Node.isReady_iff]
  exact fun hv => hw (hv w h.w_mem)

/-- Once the first half is taken, the second half is taken where the whole node was. -/
theorem settle_linked {nodes : List Node} {available available' : List String} (hm : m.Consistent)
    (hsub : ∀ k ∈ nodes, k ∈ m.nodes) (hu : u.isReady available = true)
    (hagree : AgreeOff w available available') (hw : w ∈ available') :
    (settle available' (nodes.map (putFor c v))).taken = (settle available nodes).taken.map (putFor c v) ∧
      (settle available' (nodes.map (putFor c v))).waiting =
        (settle available nodes).waiting.map (putFor c v) := by
  refine settle_map fun k hk => ?_
  by_cases hid : k.id = c.id
  · have hkc : k = c := hm.eq_of_id_eq (hsub k hk) h.mem_c hid
    rw [putFor, if_pos hid, hkc]
    refine ⟨h.outputs, fun more => ?_⟩
    rw [Node.isReady_iff] at hu
    refine h.isReady_v (Node.isReady_iff.mpr fun z hz => ?_) (hagree.append more) ?_
    · exact List.mem_append_left _ (hu z hz)
    · exact List.mem_append_left _ hw
  · rw [putFor, if_neg hid]
    exact Node.replaces_self (h.fresh k (hsub k hk)).1 hagree

section halves
variable {A B takenA waitingA : List Node} {available availableA : List String}

theorem agreeOff_link (available : List String) : AgreeOff w available (available ++ u.outputs) := by
  intro z hz
  rw [List.mem_append, h.link, List.mem_singleton]
  exact or_iff_left hz

/-- If the whole node is ready when its turn comes, so are both halves. -/
theorem settle_together (hsub : ∀ k ∈ A ++ B, k ∈ m.nodes)
    (hA : sweep available A = ⟨takenA, waitingA, availableA⟩) (hc : c.isReady availableA = true) :
    ∃ after, TakenApart c u v (settle available (A ++ c :: B)) (settle available (A ++ u :: v :: B))
      takenA [] after := by
  have hu := h.isReady_u hc
  have hlink := h.agreeOff_link availableA
  have hv : v.isReady (availableA ++ u.outputs) = true :=
    (h.isReady_v hu hlink (by rw [h.link]; simp)).trans hc
  have hread : ∀ k ∈ A ++ B, w ∉ k.inputs := fun k hk => (h.fresh k (hsub k hk)).1
  cases hB : sweep (availableA ++ c.outputs) B with
  | mk takenB waitingB availableB =>
      obtain ⟨availableB', hB', hagree⟩ := sweep_of_agreeOff
        (fun k hk => hread k (List.mem_append_right _ hk)) (hlink.append c.outputs) hB
      have hs := sweep_append hA (sweep_cons_of_ready hc hB)
      have hs' := sweep_append hA (sweep_cons_of_ready hu (sweep_cons_of_ready hv (h.outputs.symm ▸ hB')))
      have hwaits : ∀ k ∈ waitingA ++ waitingB, w ∉ k.inputs := by
        intro k hk
        refine hread k ?_
        rcases List.mem_append.mp hk with hk | hk
        · exact List.mem_append_left _ ((perm_of_sweep hA).subset (List.mem_append_right _ hk))
        · exact List.mem_append_right _ ((perm_of_sweep hB).subset (List.mem_append_right _ hk))
      obtain ⟨htaken, hwaiting⟩ := settle_of_agreeOff hwaits hagree
      rw [settle_of_sweep hs (by simp), settle_of_sweep hs' (by simp)]
      refine ⟨takenB ++ (settle availableB (waitingA ++ waitingB)).taken, ?_, ?_, hwaiting, fun _ => rfl⟩
      · simp
      · simp [htaken]

omit h in
theorem mem_taken_later {nodes taken waiting : List Node} {later : List String}
    (hids : (nodes.map Node.id).Nodup) (hs : sweep available nodes = ⟨taken, waiting, later⟩)
    (hc : c ∈ (settle available nodes).taken) (hwait : c ∈ waiting) :
    taken ≠ [] ∧ c ∈ (settle later waiting).taken := by
  by_cases hne : taken = []
  · subst hne
    rw [settle_of_nil hs] at hc
    cases hc
  · rw [settle_of_sweep hs hne] at hc
    refine ⟨hne, (List.mem_append.mp hc).resolve_left fun hmem => ?_⟩
    have hall := ((perm_of_sweep hs).map Node.id).nodup_iff.mpr hids
    rw [List.map_append, List.nodup_append] at hall
    exact hall.2.2 _ (List.mem_map_of_mem hmem) _ (List.mem_map_of_mem hwait) rfl

/-- If the first half is ready before the whole node is, the second half waits for the whole node. -/
theorem settle_between (hm : m.Consistent) (hids : ((A ++ c :: B).map Node.id).Nodup)
    (hsub : ∀ k ∈ A ++ c :: B, k ∈ m.nodes)
    (hA : sweep available A = ⟨takenA, waitingA, availableA⟩) (hu : u.isReady availableA = true)
    (hc : c.isReady availableA = false) (htaken : c ∈ (settle available (A ++ c :: B)).taken) :
    ∃ middle after, TakenApart c u v (settle available (A ++ c :: B))
      (settle available (A ++ u :: v :: B)) takenA middle after := by
  have hlink := h.agreeOff_link availableA
  have hv : v.isReady (availableA ++ u.outputs) = false :=
    (h.isReady_v hu hlink (by rw [h.link]; simp)).trans hc
  cases hB : sweep availableA B with
  | mk takenB waitingB availableB =>
      obtain ⟨availableB', hB', hagree⟩ := sweep_of_agreeOff
        (fun k hk => (h.fresh k (hsub k (by simp [hk]))).1) hlink hB
      have hs := sweep_append hA (sweep_cons_of_not_ready hc hB)
      have hs' := sweep_append hA (sweep_cons_of_ready hu (sweep_cons_of_not_ready hv hB'))
      obtain ⟨hne, hlater⟩ := mem_taken_later hids hs htaken (by simp)
      have hperm := perm_of_sweep hs
      have hwait := ids_waiting_nodup hs hids
      have huB : u.isReady availableB = true := by
        rw [Node.isReady_iff] at hu ⊢
        rw [available_of_sweep hB]
        exact fun z hz => List.mem_append_left _ (hu z hz)
      have hwB : w ∈ availableB' := by
        rw [available_of_sweep hB', h.link]
        simp
      obtain ⟨hrest, hleft⟩ := h.settle_linked hm
        (fun k hk => hsub k (hperm.subset (List.mem_append_right _ hk))) huB hagree hwB
      rw [map_putFor hwait] at hrest hleft
      obtain ⟨early, after, hsplit⟩ := List.append_of_mem hlater
      have hlaterIds := ((settle_perm availableB (waitingA ++ c :: waitingB)).map
        Node.id).nodup_iff.mpr hwait
      rw [hsplit, List.map_append, List.nodup_append] at hlaterIds
      rw [settle_of_sweep hs hne, settle_of_sweep hs' (by simp)]
      refine ⟨takenB ++ early, after, ?_, ?_, ?_, fun hall => ?_⟩
      · simp [hsplit]
      · dsimp only
        rw [hrest, hsplit, map_putFor hlaterIds.1]
        simp
      · dsimp only
        rw [hleft, map_putFor_of_ne]
        intro k hk heq
        exact hlaterIds.2.2 c.id (by simp) _ (List.mem_map_of_mem hk) heq.symm
      · rw [Node.isReady_iff] at hu
        rw [Bool.eq_false_iff, ne_eq, Node.isReady_iff] at hc
        exact absurd (fun z hz => hu z (hall z hz)) hc

theorem unlinked_of_sweep {nodes taken waiting : List Node} {later : List String}
    (hs : sweep available nodes = ⟨taken, waiting, later⟩) (hsub : ∀ k ∈ nodes, k ∈ m.nodes)
    (hw : w ∉ available) : w ∉ later := by
  rw [available_of_sweep hs, List.mem_append, List.mem_flatMap]
  rintro (hmem | ⟨k, hk, hwk⟩)
  · exact hw hmem
  · exact (h.fresh k (hsub k ((perm_of_sweep hs).subset (List.mem_append_left _ hk)))).2 hwk

/-- The sweeps after a split take the same nodes in the same order, with the two halves for the whole. -/
theorem settle_split (hm : m.Consistent) (hids : ((A ++ c :: B).map Node.id).Nodup)
    (hsub : ∀ k ∈ A ++ c :: B, k ∈ m.nodes) (hw : w ∉ available)
    (hc : c ∈ (settle available (A ++ c :: B)).taken) :
    ∃ before middle after, TakenApart c u v (settle available (A ++ c :: B))
      (settle available (A ++ u :: v :: B)) before middle after := by
  -- on the number of nodes that wait
  induction hlen : (A ++ c :: B).length using Nat.strongRecOn generalizing A B available with
  | ind len ih =>
      have hA_sub : ∀ k ∈ A, k ∈ m.nodes := fun k hk => hsub k (by simp [hk])
      have hB_sub : ∀ k ∈ B, k ∈ m.nodes := fun k hk => hsub k (by simp [hk])
      obtain ⟨takenA, waitingA, availableA, hA⟩ : ∃ t w a, sweep available A = ⟨t, w, a⟩ :=
        ⟨_, _, _, rfl⟩
      cases hready : c.isReady availableA with
      | true =>
          have hothers : ∀ k ∈ A ++ B, k ∈ m.nodes := fun k hk =>
            (List.mem_append.mp hk).elim (hA_sub k) (hB_sub k)
          obtain ⟨after, hapart⟩ := h.settle_together hothers hA hready
          exact ⟨_, _, _, hapart⟩
      | false =>
          cases hu : u.isReady availableA with
          | true =>
              obtain ⟨middle, after, hapart⟩ := h.settle_between hm hids hsub hA hu hready hc
              exact ⟨_, _, _, hapart⟩
          | false =>
              -- nothing has happened to either half, so the next sweep starts from the same
              have hwA := h.unlinked_of_sweep hA hA_sub hw
              obtain ⟨takenB, waitingB, availableB, hB⟩ : ∃ t w a, sweep availableA B = ⟨t, w, a⟩ :=
                ⟨_, _, _, rfl⟩
              have hs := sweep_append hA (sweep_cons_of_not_ready hready hB)
              have hs' := sweep_append hA (sweep_cons_of_not_ready hu
                (sweep_cons_of_not_ready (h.isReady_v_of_unlinked hwA) hB))
              obtain ⟨hne, hlater⟩ := mem_taken_later hids hs hc (by simp)
              obtain ⟨before, middle, after, hapart⟩ := ih _ (hlen ▸ sweep_waiting_lt hs hne)
                (ids_waiting_nodup hs hids)
                (fun k hk => hsub k ((perm_of_sweep hs).subset (List.mem_append_right _ hk)))
                (h.unlinked_of_sweep hB hB_sub hwA) hlater rfl
              refine ⟨takenA ++ takenB ++ before, middle, after, ?_⟩
              rw [settle_of_sweep hs hne, settle_of_sweep hs' hne]
              refine ⟨?_, ?_, hapart.waiting, hapart.direct⟩
              · dsimp only
                rw [hapart.taken]
                exact (List.append_assoc _ _ _).symm
              · dsimp only
                rw [hapart.taken']
                exact (List.append_assoc _ _ _).symm

end halves

/-! ### Schedules -/

/-- The two halves read together what the whole reads, and the link. -/
theorem agreeOff_inputs (before middle after : List Node) :
    AgreeOff w ((before ++ (middle ++ c :: after)).flatMap Node.inputs)
      ((before ++ u :: (middle ++ v :: after)).flatMap Node.inputs) := by
  intro z hz
  have hsplit := h.mem_inputs_iff hz
  simp only [List.flatMap_append, List.flatMap_cons, List.mem_append]
  tauto

theorem agreeOff_outputs (before middle after : List Node) :
    AgreeOff w ((before ++ (middle ++ c :: after)).flatMap Node.outputs)
      ((before ++ u :: (middle ++ v :: after)).flatMap Node.outputs) := by
  intro z hz
  simp only [List.flatMap_append, List.flatMap_cons, List.mem_append, h.outputs, h.link,
    List.mem_singleton]
  tauto

theorem isDeadInput_eq {k k' : Node} {read read' : List String} (hs : Stands pre c v post k k')
    (hagree : AgreeOff w read read') : k'.isDeadInput read' = k.isDeadInput read := by
  have hkind : k'.kind = .input ↔ k.kind = .input := by
    cases hs with
    | other hk => rfl
    | last => exact h.input
  have hfirst : k'.outputs.head? = k.outputs.head? := h.firstOutput?_eq hs
  rw [Bool.eq_iff_iff, Node.isDeadInput_iff, Node.isDeadInput_iff, hkind, hfirst]
  refine and_congr_right fun _ => forall₂_congr fun x hx => not_congr (hagree x ?_)
  rintro rfl
  exact (h.fresh k (h.mem_of_stands hs).1).2 (List.mem_of_mem_head? hx)

end Splits

/-- Two schedules are the same, with `u` and `v` for `c`. -/
structure ScheduledApart (c u v : Node) (s s' : Schedule) (before middle after : List Node) : Prop where
  order : s.order = before ++ (middle ++ c :: after)
  order' : s'.order = before ++ u :: (middle ++ v :: after)
  dropped : s'.dropped = s.dropped
  direct : (∀ z ∈ c.inputs, z ∈ u.inputs) → middle = []

namespace Splits

variable {m m' : Model} {pre post : List Node} {c u v : Node} {w : String}
variable (h : m.Splits m' pre c u v post w) {excluded : String → Bool}
include h

theorem runnable_apart (hm : m.Consistent) (hu : excluded u.id = false) (hv : excluded v.id = false)
    (hc : c ∈ m.runnable excluded) : ∃ before middle after, TakenApart c u v
      (settle [] (m.candidates excluded)) (settle [] (m'.candidates excluded)) before middle after := by
  obtain ⟨_, hskip, hkept⟩ := mem_of_mem_runnable hc
  have hids : ((m.candidates excluded).map Node.id).Nodup :=
    hm.ids_nodup.sublist (List.filter_sublist.map _)
  have hsub : ∀ k ∈ m.candidates excluded, k ∈ m.nodes := fun k hk => List.mem_of_mem_filter hk
  have hnodes : m.candidates excluded = pre.filter (fun n => n.kind ≠ .skip && !excluded n.id) ++
      c :: post.filter fun n => n.kind ≠ .skip && !excluded n.id := by
    unfold candidates
    rw [h.nodes, List.filter_append, List.filter_cons_of_pos (by simp [hskip, hkept])]
  have hnodes' : m'.candidates excluded = pre.filter (fun n => n.kind ≠ .skip && !excluded n.id) ++
      u :: v :: post.filter fun n => n.kind ≠ .skip && !excluded n.id := by
    unfold candidates
    rw [h.nodes', List.filter_append, List.filter_cons_of_pos (by simp [h.proper.1, hu]),
      List.filter_cons_of_pos (by simp [h.proper.2.2, hv])]
  change c ∈ (settle [] (m.candidates excluded)).taken at hc
  rw [hnodes] at hids hsub hc ⊢
  rw [hnodes']
  exact h.settle_split hm hids hsub (by simp) hc

omit h in
theorem filter_halves {p p' : Node → Bool} {before middle after : List Node}
    (hsame : ∀ k ∈ before ++ (middle ++ after), p' k = p k) (hu : p' u = true) (hv : p' v = true) :
    (before ++ u :: (middle ++ v :: after)).filter p' =
      before.filter p ++ u :: (middle.filter p ++ v :: after.filter p) := by
  simp only [List.mem_append] at hsame
  rw [List.filter_append, List.filter_cons_of_pos hu, List.filter_append, List.filter_cons_of_pos hv,
    List.filter_congr fun k hk => hsame k (.inl hk),
    List.filter_congr fun k hk => hsame k (.inr (.inl hk)),
    List.filter_congr fun k hk => hsame k (.inr (.inr hk))]

omit h in
theorem filter_halves_neg {p p' : Node → Bool} {before middle after : List Node}
    (hsame : ∀ k ∈ before ++ (middle ++ after), p' k = p k) (hu : p' u = false) (hv : p' v = false)
    (hc : p c = false) : (before ++ u :: (middle ++ v :: after)).filter p' =
      (before ++ (middle ++ c :: after)).filter p := by
  simp only [List.mem_append] at hsame
  rw [List.filter_append, List.filter_cons_of_neg (by simp [hu]), List.filter_append,
    List.filter_cons_of_neg (by simp [hv]), List.filter_append, List.filter_append,
    List.filter_cons_of_neg (by simp [hc]), List.filter_congr fun k hk => hsame k (.inl hk),
    List.filter_congr fun k hk => hsame k (.inr (.inl hk)),
    List.filter_congr fun k hk => hsame k (.inr (.inr hk))]

/-- All but the whole node stay what they are. -/
theorem stands_others {order before middle after : List Node} (hids : (order.map Node.id).Nodup)
    (hsub : ∀ k ∈ order, k ∈ m.nodes) (horder : order = before ++ (middle ++ c :: after)) :
    ∀ k ∈ before ++ (middle ++ after), Stands pre c v post k k := by
  have hperm : order.Perm (c :: (before ++ (middle ++ after))) := by
    rw [horder, ← List.append_assoc, ← List.append_assoc]
    exact List.perm_middle
  have hnodup := (hperm.map Node.id).nodup_iff.mp hids
  rw [List.map_cons, List.nodup_cons] at hnodup
  intro k hk
  have hmem := hsub k (hperm.symm.subset (List.mem_cons_of_mem _ hk))
  rw [h.nodes, List.mem_append, List.mem_cons] at hmem
  rcases hmem with hpre | heq | hpost
  · exact .other (List.mem_append_left _ hpre)
  · exact absurd (heq ▸ List.mem_map_of_mem hk) hnodup.1
  · exact .other (List.mem_append_right _ hpost)

/-- The schedule after a split is the same, with the two halves for the whole. -/
theorem scheduled (hm : m.Consistent) (hu : excluded u.id = false) (hv : excluded v.id = false)
    (hc : c ∈ (scheduleWithout m excluded).order) : ∃ before middle after, ScheduledApart c u v
      (scheduleWithout m excluded) (scheduleWithout m' excluded) before middle after := by
  obtain ⟨hrun, halive⟩ := mem_order_iff.mp hc
  obtain ⟨before, middle, after, hapart⟩ := h.runnable_apart hm hu hv hrun
  have htaken : m.runnable excluded = before ++ (middle ++ c :: after) := hapart.taken
  have htaken' : m'.runnable excluded = before ++ u :: (middle ++ v :: after) := hapart.taken'
  have hread : AgreeOff w (m.valuesRead excluded) (m'.valuesRead excluded) := by
    unfold Model.valuesRead
    rw [htaken, htaken']
    exact h.agreeOff_inputs before middle after
  have hdead : ∀ k ∈ before ++ (middle ++ after), k.isDeadInput (m'.valuesRead excluded) =
      k.isDeadInput (m.valuesRead excluded) :=
    fun k hk => h.isDeadInput_eq (h.stands_others (runnable_ids_nodup hm excluded)
      (fun k hk => (mem_of_mem_runnable hk).1) htaken k hk) hread
  have hdead_v : v.isDeadInput (m'.valuesRead excluded) = false :=
    (h.isDeadInput_eq .last hread).trans halive
  have hdead_u : u.isDeadInput (m'.valuesRead excluded) = false := by
    rw [Bool.eq_false_iff, ne_eq, Node.isDeadInput_iff]
    exact fun hinput => h.proper.2.1 hinput.1
  refine ⟨before.filter fun n => !n.isDeadInput (m.valuesRead excluded),
    middle.filter fun n => !n.isDeadInput (m.valuesRead excluded),
    after.filter fun n => !n.isDeadInput (m.valuesRead excluded), ?_, ?_, ?_, fun hall => ?_⟩
  · rw [order_eq, htaken, List.filter_append, List.filter_append,
      List.filter_cons_of_pos (by rw [halive]; rfl)]
  · rw [order_eq, htaken']
    exact filter_halves (fun k hk => congrArg _ (hdead k hk)) (by rw [hdead_u]; rfl)
      (by rw [hdead_v]; rfl)
  · have hmissing : ∀ n ∈ (settle [] (m.candidates excluded)).waiting,
        n.missing (settle [] (m'.candidates excluded)).available =
          n.missing (settle [] (m.candidates excluded)).available := by
      intro n hn
      have hmem := (settle_perm [] (m.candidates excluded)).subset (List.mem_append_right _ hn)
      refine Node.missing_of_agreeOff (h.fresh n (List.mem_of_mem_filter hmem)).1 ?_
      rw [settle_available, settle_available, hapart.taken, hapart.taken']
      exact h.agreeOff_outputs before middle after
    rw [schedule_dropped, schedule_dropped, hapart.waiting, htaken, htaken',
      filter_halves_neg hdead hdead_u hdead_v halive,
      List.map_congr_left fun n hn => by rw [hmissing n hn]]
  · rw [hapart.direct hall]
    rfl

end Splits

end Model

end NetLowering
