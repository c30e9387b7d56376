import Mathlib
import NetLowering.Proofs.Accounting
import NetLowering.Proofs.Parts

/-! # Rounds

The sweeps that order the nodes of a model are numbered from one, and the round of a node is the number of
the sweep that takes it. Within one sweep a node can become ready because of a node taken just before it, so
rounds are not depths: a producer costs its readers a round only if it was inserted after them. This gives a
recursion on the nodes alone (`Model.IsRounding`) which has one solution, and the schedule is sorted by it,
nodes of one round staying in the order of insertion (`schedule_sorted_by_round`).

The link between the sweeps and the recursion is `Model.mem_taken_iff_isLeast`: a node is taken by the first
sweep by which it is ready. -/

namespace NetLowering

/-! ### One sweep -/

section sweeps
variable {available : List String} {nodes : List Node}

theorem sweep_taken_sublist (available : List String) (nodes : List Node) :
    (sweep available nodes).taken.Sublist nodes := by
  fun_induction sweep available nodes with
  | case1 available => exact List.Sublist.slnil
  | case2 available n rest _ s ih => exact ih.cons_cons n
  | case3 available n rest _ s ih => exact ih.cons n

theorem sweep_waiting_sublist (available : List String) (nodes : List Node) :
    (sweep available nodes).waiting.Sublist nodes := by
  fun_induction sweep available nodes with
  | case1 available => exact List.Sublist.slnil
  | case2 available n rest _ s ih => exact ih.cons n
  | case3 available n rest _ s ih => exact ih.cons_cons n

/-- A sweep takes the nodes whose inputs were available before it or are outputs of nodes that it took
further up. -/
theorem mem_sweep_taken_iff {pos : Node → Nat} (hpos : nodes.Pairwise fun a b => pos a < pos b) {n : Node} :
    n ∈ (sweep available nodes).taken ↔ n ∈ nodes ∧ ∀ x ∈ n.inputs, x ∈ available ∨
      ∃ p ∈ (sweep available nodes).taken, x ∈ p.outputs ∧ pos p < pos n := by
  fun_induction sweep available nodes with
  | case1 available => simp
  | case2 available first rest hready s ih =>
      obtain ⟨hfirst, hrest⟩ := List.pairwise_cons.mp hpos
      show n ∈ first :: s.taken ↔ _ ∧ ∀ x ∈ n.inputs, _ ∨ ∃ p ∈ first :: s.taken, _
      rw [List.mem_cons, List.mem_cons]
      constructor
      · rintro (rfl | hn)
        · exact ⟨.inl rfl, fun x hx => .inl (Node.isReady_iff.mp hready x hx)⟩
        · obtain ⟨hmem, hinputs⟩ := (ih hrest).mp hn
          refine ⟨.inr hmem, fun x hx => ?_⟩
          rcases hinputs x hx with hx | ⟨p, hp, hxp, hlt⟩
          · rcases List.mem_append.mp hx with hx | hx
            · exact .inl hx
            · exact .inr ⟨first, List.mem_cons_self, hx, hfirst n hmem⟩
          · exact .inr ⟨p, List.mem_cons_of_mem _ hp, hxp, hlt⟩
      · rintro ⟨rfl | hmem, hinputs⟩
        · exact .inl rfl
        · refine .inr ((ih hrest).mpr ⟨hmem, fun x hx => ?_⟩)
          rcases hinputs x hx with hx | ⟨p, hp, hxp, hlt⟩
          · exact .inl (List.mem_append_left _ hx)
          · rcases List.mem_cons.mp hp with rfl | hp
            · exact .inl (List.mem_append_right _ hxp)
            · exact .inr ⟨p, hp, hxp, hlt⟩
  | case3 available first rest hready s ih =>
      obtain ⟨hfirst, hrest⟩ := List.pairwise_cons.mp hpos
      show n ∈ s.taken ↔ _ ∧ ∀ x ∈ n.inputs, _ ∨ ∃ p ∈ s.taken, _
      rw [List.mem_cons]
      constructor
      · intro hn
        obtain ⟨hmem, hinputs⟩ := (ih hrest).mp hn
        exact ⟨.inr hmem, hinputs⟩
      · rintro ⟨rfl | hmem, hinputs⟩
        · -- all that is taken stands further down, so the node would have been ready
          refine absurd (Node.isReady_iff.mpr fun x hx => ?_) hready
          rcases hinputs x hx with hx | ⟨p, hp, _, hlt⟩
          · exact hx
          · have := hfirst p ((sweep_taken_sublist available rest).subset hp)
            omega
        · exact (ih hrest).mpr ⟨hmem, hinputs⟩

end sweeps

namespace Model

/-! ### Positions -/

/-- Where a node stands in the order of insertion. -/
def position (m : Model) (n : Node) : Nat := (m.nodes.map Node.id).idxOf n.id

theorem Consistent.pairwise_position {m : Model} (hm : m.Consistent) :
    m.nodes.Pairwise fun a b => m.position a < m.position b := by
  have hposition (i : Nat) (hi : i < m.nodes.length) : m.position m.nodes[i] = i := by
    have hidx := hm.ids_nodup.idxOf_getElem i (by simpa using hi)
    rwa [List.getElem_map] at hidx
  rw [List.pairwise_iff_getElem]
  intro i j hi hj hij
  rw [hposition i hi, hposition j hj]
  exact hij

/-! ### Sweeps by number -/

/-- What the sweeps over the candidates come to: the nodes that sweep number `k` takes, and what waits and
is available after it. -/
def pass (m : Model) (excluded : String → Bool) : Nat → Sweep
  | 0 => ⟨[], m.candidates excluded, []⟩
  | k + 1 => sweep (m.pass excluded k).available (m.pass excluded k).waiting

/-- The sweeps end: each of the first `last` takes something, the next takes nothing, and what they took is
all that is ever taken. -/
structure StopsAfter (m : Model) (excluded : String → Bool) (last : Nat) : Prop where
  bounded : last ≤ (m.candidates excluded).length
  productive : ∀ k, 1 ≤ k → k ≤ last → (m.pass excluded k).taken ≠ []
  idle : (m.pass excluded (last + 1)).taken = []
  runnable : m.runnable excluded = (List.range' 1 last).flatMap fun k => (m.pass excluded k).taken

variable {m : Model} {excluded : String → Bool} {n p : Node} {k : Nat}

theorem pass_succ : m.pass excluded (k + 1) =
    sweep (m.pass excluded k).available (m.pass excluded k).waiting := rfl

/-- From any sweep on, the sweeps end, and each of them leaves less than the one before. -/
theorem exists_last (m : Model) (excluded : String → Bool) (k : Nat) : ∃ more, more ≤ (m.pass excluded k).waiting.length ∧
    (∀ j, k < j → j ≤ k + more → (m.pass excluded j).taken ≠ []) ∧
    (m.pass excluded (k + more + 1)).taken = [] ∧
    (settle (m.pass excluded k).available (m.pass excluded k).waiting).taken =
      (List.range' (k + 1) more).flatMap fun j => (m.pass excluded j).taken := by
  generalize havailable : (m.pass excluded k).available = available
  generalize hwaiting : (m.pass excluded k).waiting = waiting
  have hnext : m.pass excluded (k + 1) = sweep available waiting := by rw [pass_succ, havailable, hwaiting]
  fun_induction settle available waiting generalizing k with
  | case1 available waiting hnone =>
      refine ⟨0, Nat.zero_le _, fun j _ _ => by omega, ?_, ?_⟩
      · rw [Nat.add_zero, hnext]
        exact hnone
      · rw [hnone]
        rfl
  | case2 available waiting hsome later ih =>
      obtain ⟨more, hbound, hproductive, hidle, hlater⟩ := ih (k + 1) (by rw [hnext]) (by rw [hnext])
        (by rw [pass_succ, hnext])
      have hless : (sweep available waiting).waiting.length < waiting.length := sweep_waiting_lt rfl hsome
      refine ⟨more + 1, by omega, ?_, ?_, ?_⟩
      · intro j hj hle
        by_cases hfirst : j = k + 1
        · rw [hfirst, hnext]
          exact hsome
        · exact hproductive j (by omega) (by omega)
      · rw [← hidle]
        congr 2
        omega
      · rw [List.range'_succ, List.flatMap_cons, hnext, ← hlater]

theorem exists_stopsAfter (m : Model) (excluded : String → Bool) : ∃ last, m.StopsAfter excluded last := by
  obtain ⟨last, hbound, hproductive, hidle, htaken⟩ := exists_last m excluded 0
  refine ⟨last, hbound, fun k hk hle => hproductive k hk (by omega), ?_, htaken⟩
  rw [← hidle, Nat.zero_add]

theorem pass_waiting_sublist (k : Nat) :
    (m.pass excluded k).waiting.Sublist (m.candidates excluded) := by
  induction k with
  | zero => exact List.Sublist.refl _
  | succ k ih => exact (sweep_waiting_sublist _ _).trans ih

theorem pass_taken_sublist (k : Nat) : (m.pass excluded k).taken.Sublist m.nodes := by
  cases k with
  | zero => exact List.nil_sublist _
  | succ k => exact ((sweep_taken_sublist _ _).trans (pass_waiting_sublist k)).trans List.filter_sublist

/-- A value is available after a sweep iff it is an output of a node taken by then. -/
theorem mem_pass_available_iff {x : String} : x ∈ (m.pass excluded k).available ↔
    ∃ j ≤ k, ∃ p ∈ (m.pass excluded j).taken, x ∈ p.outputs := by
  induction k with
  | zero => simp [pass]
  | succ k ih =>
      rw [pass_succ, sweep_available, List.mem_append, ih, List.mem_flatMap, ← pass_succ]
      constructor
      · rintro (⟨j, hj, htaken⟩ | htaken)
        · exact ⟨j, by omega, htaken⟩
        · exact ⟨k + 1, le_rfl, htaken⟩
      · rintro ⟨j, hj, htaken⟩
        by_cases hlast : j = k + 1
        · exact .inr (hlast ▸ htaken)
        · exact .inl ⟨j, by omega, htaken⟩

/-! ### Ready by a sweep -/

/-- What a producer adds to its round for a reader: nothing if the sweep comes to it first. -/
def delay (m : Model) (p n : Node) : Nat := if m.position p < m.position n then 0 else 1

/-- When sweep number `k` comes to the node, all its inputs are there. -/
def ReadyBy (m : Model) (excluded : String → Bool) (k : Nat) (n : Node) : Prop :=
  ∀ x ∈ n.inputs, ∃ j, ∃ p ∈ (m.pass excluded j).taken, x ∈ p.outputs ∧ j + m.delay p n ≤ k

section taken
variable (hm : m.Consistent)
include hm

theorem pass_waiting_pairwise (k : Nat) :
    (m.pass excluded k).waiting.Pairwise fun a b => m.position a < m.position b :=
  hm.pairwise_position.sublist ((pass_waiting_sublist k).trans List.filter_sublist)

theorem mem_taken_succ_iff : n ∈ (m.pass excluded (k + 1)).taken ↔
    n ∈ (m.pass excluded k).waiting ∧ m.ReadyBy excluded (k + 1) n := by
  rw [pass_succ, mem_sweep_taken_iff (pass_waiting_pairwise hm k), ← pass_succ]
  refine and_congr_right fun _ => forall₂_congr fun x _ => ?_
  rw [mem_pass_available_iff]
  unfold delay
  constructor
  · rintro (⟨j, hj, p, hp, hx⟩ | ⟨p, hp, hx, hlt⟩)
    · refine ⟨j, p, hp, hx, ?_⟩
      split <;> omega
    · exact ⟨k + 1, p, hp, hx, by simp [hlt]⟩
  · rintro ⟨j, p, hp, hx, hle⟩
    split at hle
    · rename_i hlt
      by_cases hlast : j = k + 1
      · exact .inr ⟨p, hlast ▸ hp, hx, hlt⟩
      · exact .inl ⟨j, by omega, p, hp, hx⟩
    · exact .inl ⟨j, by omega, p, hp, hx⟩

theorem mem_pass_waiting_iff : n ∈ (m.pass excluded k).waiting ↔
    n ∈ m.candidates excluded ∧ ∀ j, 1 ≤ j → j ≤ k → ¬m.ReadyBy excluded j n := by
  induction k with
  | zero =>
      show n ∈ m.candidates excluded ↔ _
      exact ⟨fun hn => ⟨hn, fun j _ _ => by omega⟩, fun hn => hn.1⟩
  | succ k ih =>
      have hnodup : (m.pass excluded k).waiting.Nodup :=
        hm.candidate_ids_nodup.of_map.sublist (pass_waiting_sublist k)
      have hstep : n ∈ (m.pass excluded (k + 1)).waiting ↔
          n ∈ (m.pass excluded k).waiting ∧ n ∉ (m.pass excluded (k + 1)).taken :=
        mem_right_iff_of_perm_append (sweep_perm _ _) hnodup
      rw [hstep, mem_taken_succ_iff hm, ih]
      constructor
      · rintro ⟨⟨hn, hbefore⟩, hnot⟩
        refine ⟨hn, fun j hj hle hready => ?_⟩
        by_cases hlast : j = k + 1
        · exact hnot ⟨⟨hn, hbefore⟩, hlast ▸ hready⟩
        · exact hbefore j hj (by omega) hready
      · rintro ⟨hn, hbefore⟩
        exact ⟨⟨hn, fun j hj hle => hbefore j hj (by omega)⟩, fun h => hbefore _ (by omega) le_rfl h.2⟩

/-- A candidate is taken by the first sweep by which it is ready. -/
theorem mem_taken_iff_isLeast : n ∈ (m.pass excluded k).taken ↔
    n ∈ m.candidates excluded ∧ IsLeast {j | 1 ≤ j ∧ m.ReadyBy excluded j n} k := by
  cases k with
  | zero =>
      show n ∈ [] ↔ _
      simp [IsLeast]
  | succ k =>
      rw [mem_taken_succ_iff hm, mem_pass_waiting_iff hm]
      constructor
      · rintro ⟨⟨hn, hbefore⟩, hready⟩
        refine ⟨hn, ⟨by omega, hready⟩, fun j hj => ?_⟩
        by_contra hlt
        exact hbefore j hj.1 (by omega) hj.2
      · rintro ⟨hn, hready, hleast⟩
        refine ⟨⟨hn, fun j hj hle hj' => ?_⟩, hready.2⟩
        have := hleast ⟨hj, hj'⟩
        omega

theorem taken_unique {j : Nat} (hj : n ∈ (m.pass excluded j).taken) (hk : n ∈ (m.pass excluded k).taken) :
    j = k :=
  ((mem_taken_iff_isLeast hm).mp hj).2.unique ((mem_taken_iff_isLeast hm).mp hk).2

end taken

theorem pass_of_idle (hidle : (m.pass excluded (k + 1)).taken = []) (i : Nat) :
    m.pass excluded (k + 1 + i) = m.pass excluded (k + 1) := by
  induction i with
  | zero => rfl
  | succ i ih =>
      have hsweep : sweep (m.pass excluded k).available (m.pass excluded k).waiting =
          ⟨[], (m.pass excluded (k + 1)).waiting, (m.pass excluded (k + 1)).available⟩ := by
        rw [← hidle, ← pass_succ]
      obtain ⟨hwaiting, havailable⟩ := sweep_eq_of_nil hsweep
      rw [← Nat.add_assoc, pass_succ, ih, hwaiting, havailable, ← pass_succ]

theorem mem_runnable_iff : n ∈ m.runnable excluded ↔ ∃ k, n ∈ (m.pass excluded k).taken := by
  obtain ⟨last, hstops⟩ := exists_stopsAfter m excluded
  rw [hstops.runnable, List.mem_flatMap]
  constructor
  · rintro ⟨k, _, hn⟩
    exact ⟨k, hn⟩
  · rintro ⟨k, hn⟩
    refine ⟨k, ?_, hn⟩
    rw [List.mem_range'_1]
    by_contra hout
    rcases Nat.eq_zero_or_pos k with rfl | hpos
    · cases hn
    · obtain ⟨i, rfl⟩ : ∃ i, k = last + 1 + i := ⟨k - (last + 1), by omega⟩
      rw [pass_of_idle hstops.idle, hstops.idle] at hn
      cases hn

/-! ### Rounds -/

/-- The node produces an input of the other. -/
def Feeds (m : Model) (p n : Node) : Prop := ∃ x ∈ n.inputs, m.producer? x = some p

/-- The round of a node is the greatest of one and, for each producer of its inputs, the producer's round,
or the one after it if the producer was inserted later. -/
def IsRounding (m : Model) (live : Set Node) (round : Node → Nat) : Prop :=
  ∀ n ∈ live, IsGreatest ({1} ∪ {r | ∃ p, m.Feeds p n ∧ r = round p + m.delay p n}) (round n)

/-- The list holds the nodes of a set in the order of their rounds, and within a round in the order of
insertion. -/
structure SortedByRound (m : Model) (live : Set Node) (round : Node → Nat) (nodes : List Node) : Prop where
  mem_iff : ∀ n, n ∈ nodes ↔ n ∈ live
  sorted : nodes.Pairwise fun a b => toLex (round a, m.position a) < toLex (round b, m.position b)

section rounds
variable {round : Node → Nat} (hm : m.Consistent)
include hm

theorem exists_producer_before {pre post : List Node} (hsplit : m.runnable excluded = pre ++ n :: post)
    {x : String} (hx : x ∈ n.inputs) : ∃ p ∈ pre, x ∈ p.outputs ∧ m.producer? x = some p := by
  obtain ⟨p, hp, hxp⟩ := runnable_closedOrder pre n post hsplit x hx
  have hrun : p ∈ m.runnable excluded := by
    rw [hsplit]
    exact List.mem_append_left _ hp
  exact ⟨p, hp, hxp, hm.producer?_eq_some_iff.mpr ⟨(mem_of_mem_runnable hrun).1, hxp⟩⟩

theorem mem_before_of_feeds {pre post : List Node} (hsplit : m.runnable excluded = pre ++ n :: post)
    (hp : m.Feeds p n) : p ∈ pre := by
  obtain ⟨x, hx, hproducer⟩ := hp
  obtain ⟨q, hq, _, hproducer'⟩ := exists_producer_before hm hsplit hx
  rw [hproducer] at hproducer'
  cases hproducer'
  exact hq

theorem mem_runnable_of_feeds (hn : n ∈ m.runnable excluded) (hp : m.Feeds p n) :
    p ∈ m.runnable excluded := by
  obtain ⟨pre, post, hsplit⟩ := List.append_of_mem hn
  have hpre := mem_before_of_feeds hm hsplit hp
  rw [hsplit]
  exact List.mem_append_left _ hpre

/-- When a node is ready depends on the rounds of its producers. -/
theorem readyBy_iff (hn : n ∈ m.runnable excluded)
    (hround : ∀ p, m.Feeds p n → p ∈ (m.pass excluded (round p)).taken) :
    m.ReadyBy excluded k n ↔ ∀ p, m.Feeds p n → round p + m.delay p n ≤ k := by
  constructor
  · rintro hready p ⟨x, hx, hproducer⟩
    obtain ⟨j, q, hq, hxq, hle⟩ := hready x hx
    have hqm := (pass_taken_sublist j).subset hq
    obtain ⟨hpm, hxp⟩ := hm.producer?_eq_some_iff.mp hproducer
    obtain rfl := hm.eq_of_mem_outputs hpm hqm hxp hxq
    rw [taken_unique hm (hround p ⟨x, hx, hproducer⟩) hq]
    exact hle
  · intro hle x hx
    obtain ⟨pre, post, hsplit⟩ := List.append_of_mem hn
    obtain ⟨p, _, hxp, hproducer⟩ := exists_producer_before hm hsplit hx
    have hfeeds : m.Feeds p n := ⟨x, hx, hproducer⟩
    exact ⟨round p, p, hround p hfeeds, hxp, hle p hfeeds⟩

/-- The number of the sweep that takes a node, by the recursion for rounds. -/
theorem mem_taken_iff_isGreatest (hn : n ∈ m.runnable excluded)
    (hround : ∀ p, m.Feeds p n → p ∈ (m.pass excluded (round p)).taken) :
    n ∈ (m.pass excluded k).taken ↔
      IsGreatest ({1} ∪ {r | ∃ p, m.Feeds p n ∧ r = round p + m.delay p n}) k := by
  have hbounds : {j | 1 ≤ j ∧ m.ReadyBy excluded j n} =
      upperBounds ({1} ∪ {r | ∃ p, m.Feeds p n ∧ r = round p + m.delay p n}) := by
    ext j
    rw [upperBounds_union, upperBounds_singleton]
    simp only [Set.mem_ofPred_eq, readyBy_iff hm hn hround, Set.mem_inter_iff, Set.mem_Ici, upperBounds]
    refine and_congr_right fun _ => ⟨?_, ?_⟩
    · rintro hle r ⟨p, hp, rfl⟩
      exact hle p hp
    · intro hle p hp
      exact hle ⟨p, hp, rfl⟩
  have hcand : n ∈ m.candidates excluded := mem_candidates_iff.mpr (mem_of_mem_runnable hn)
  rw [mem_taken_iff_isLeast hm, and_iff_right hcand, hbounds]
  constructor
  · intro h
    refine ⟨IsLUB.mem_of_not_isSuccLimit h ⟨1, .inl rfl⟩ ?_, h.1⟩
    exact Order.not_isSuccLimit_of_isSuccArchimedean
  · exact IsGreatest.isLUB

/-- Whatever satisfies the recursion gives the number of the sweep that takes a node. -/
theorem IsRounding.mem_taken (hr : m.IsRounding {n | n ∈ m.runnable excluded} round) :
    ∀ n ∈ m.runnable excluded, n ∈ (m.pass excluded (round n)).taken := by
  -- along the runnable nodes, where producers come first
  refine forall_mem_of_before fun pre n post hsplit hbefore => ?_
  have hn : n ∈ m.runnable excluded := by rw [hsplit]; simp
  apply (mem_taken_iff_isGreatest hm hn _).mpr (hr n hn)
  intro p hp
  exact hbefore p (mem_before_of_feeds hm hsplit hp)

theorem exists_isRounding : ∃ round, m.IsRounding {n | n ∈ m.runnable excluded} round := by
  have hall : ∀ n, ∃ k, n ∈ m.runnable excluded → n ∈ (m.pass excluded k).taken := by
    intro n
    by_cases hn : n ∈ m.runnable excluded
    · obtain ⟨k, hk⟩ := mem_runnable_iff.mp hn
      exact ⟨k, fun _ => hk⟩
    · exact ⟨0, fun h => absurd h hn⟩
  choose round hround using hall
  refine ⟨round, fun n hn => (mem_taken_iff_isGreatest hm hn fun p hp => ?_).mp (hround n hn)⟩
  exact hround p (mem_runnable_of_feeds hm hn hp)

variable (hr : m.IsRounding {n | n ∈ m.runnable excluded} round)
include hr

theorem IsRounding.mem_taken_iff :
    n ∈ (m.pass excluded k).taken ↔ n ∈ m.runnable excluded ∧ round n = k := by
  constructor
  · intro hn
    have hrun : n ∈ m.runnable excluded := mem_runnable_iff.mpr ⟨k, hn⟩
    exact ⟨hrun, taken_unique hm (hr.mem_taken hm n hrun) hn⟩
  · rintro ⟨hn, rfl⟩
    exact hr.mem_taken hm n hn

theorem IsRounding.sortedByRound :
    m.SortedByRound {n | n ∈ m.runnable excluded} round (m.runnable excluded) := by
  obtain ⟨last, hstops⟩ := exists_stopsAfter m excluded
  have hround (k : Nat) (n : Node) (hn : n ∈ (m.pass excluded k).taken) : round n = k :=
    ((hr.mem_taken_iff hm).mp hn).2
  refine ⟨fun n => Iff.rfl, ?_⟩
  rw [hstops.runnable, List.pairwise_flatMap]
  constructor
  · -- within a sweep, by insertion
    intro k _
    refine (hm.pairwise_position.sublist (pass_taken_sublist k)).imp_of_mem fun ha hb hlt => ?_
    rw [Prod.Lex.toLex_lt_toLex, hround k _ ha, hround k _ hb]
    exact .inr ⟨rfl, hlt⟩
  · -- between sweeps, by their numbers
    have hlt : (List.range' 1 last).Pairwise (· < ·) := List.pairwise_lt_range'
    refine hlt.imp fun {i j} hij a ha b hb => ?_
    rw [Prod.Lex.toLex_lt_toLex, hround i a ha, hround j b hb]
    exact .inl hij

/-- If every producer was inserted before its readers, one sweep is enough. -/
theorem IsRounding.eq_one
    (hbefore : ∀ n ∈ m.runnable excluded, ∀ p, m.Feeds p n → m.position p < m.position n) :
    ∀ n ∈ m.runnable excluded, round n = 1 := by
  refine forall_mem_of_before fun pre n post hsplit hpre => ?_
  have hn : n ∈ m.runnable excluded := by rw [hsplit]; simp
  rcases (hr n hn).1 with hone | ⟨p, hp, heq⟩
  · exact hone
  · rw [heq, hpre p (mem_before_of_feeds hm hsplit hp), delay, if_pos (hbefore n hn p hp)]

theorem IsRounding.runnable_sublist
    (hbefore : ∀ n ∈ m.runnable excluded, ∀ p, m.Feeds p n → m.position p < m.position n) :
    (m.runnable excluded).Sublist m.nodes := by
  obtain ⟨last, hstops⟩ := exists_stopsAfter m excluded
  have hlast : last ≤ 1 := by
    by_contra hlt
    obtain ⟨n, hn⟩ := List.exists_mem_of_ne_nil _ (hstops.productive 2 (by omega) (by omega))
    obtain ⟨hrun, htwo⟩ := (hr.mem_taken_iff hm).mp hn
    have hone := hr.eq_one hm hbefore n hrun
    omega
  rw [hstops.runnable]
  interval_cases last
  · exact List.nil_sublist _
  · simpa using pass_taken_sublist (m := m) 1

end rounds

end Model

/-- The sweeps over the nodes of a model end, and the order they give is known from the nodes alone. The nodes
that can run at all have rounds, which the recursion determines; the sweeps take them sorted by round and,
within a round, by insertion; and the schedule is what is left of that order without the inputs nobody reads.
If every producer was inserted before its readers, it keeps the order of insertion. -/
theorem schedule_sorted_by_round (m : Model) (hm : m.Reachable) (excluded : String → Bool) :
    ∃ live round last, IsLeast {s | m.SelfSufficient excluded s} live ∧ m.StopsAfter excluded last ∧
      m.IsRounding live round ∧ (∀ other, m.IsRounding live other → ∀ n ∈ live, other n = round n) ∧
      m.SortedByRound live round (m.runnable excluded) ∧
      (∀ k n, n ∈ (m.pass excluded k).taken ↔ n ∈ live ∧ round n = k) ∧
      (scheduleWithout m excluded).order.Sublist (m.runnable excluded) ∧
      (∀ n, n ∈ (scheduleWithout m excluded).order ↔ n ∈ live ∧ ¬n.Unread live) ∧
      ((∀ n ∈ live, ∀ p, m.Feeds p n → m.position p < m.position n) →
        (scheduleWithout m excluded).order.Sublist m.nodes) := by
  have hcons := hm.consistent
  obtain ⟨last, hstops⟩ := Model.exists_stopsAfter m excluded
  obtain ⟨round, hr⟩ : ∃ round, m.IsRounding {n | n ∈ m.runnable excluded} round :=
    Model.exists_isRounding hcons
  refine ⟨{n | n ∈ m.runnable excluded}, round, last, Model.isLeast_runnable, hstops, hr, ?_,
    hr.sortedByRound hcons, fun k n => hr.mem_taken_iff hcons, List.filter_sublist, fun n => ?_, ?_⟩
  · intro other hother n hn
    exact Model.taken_unique hcons (hother.mem_taken hcons n hn) (hr.mem_taken hcons n hn)
  · rw [mem_order_iff, Node.unread_iff, Bool.not_eq_true]
    rfl
  · intro hbefore
    exact List.filter_sublist.trans (hr.runnable_sublist hcons hbefore)

/-- An image that is rectified twice and added to the result, the second rectification written down first, and
an image nobody reads. -/
def shuffledImage : List Node :=
  [{ id := "late", kind := .relu, inputs := ["b"], outputs := ["c"] },
   { id := "image", kind := .input, outputs := ["a"], outputShapes := [⟨[4, 4, 3], .rowColumnChannel⟩] },
   { id := "early", kind := .relu, inputs := ["a"], outputs := ["b"] },
   { id := "spare", kind := .input, outputs := ["s"], outputShapes := [⟨[4, 4, 3], .rowColumnChannel⟩] },
   { id := "sum", kind := .plus, inputs := ["c", "a"], outputs := ["out"] }]

theorem schedule_sorted_shuffledImage : (Model.mk shuffledImage []).Reachable ∧
    (schedule ⟨shuffledImage, []⟩).order.map Node.id = ["image", "early", "late", "sum"] ∧
    ∃ live round, (Model.mk shuffledImage []).IsRounding live round ∧
      (Model.mk shuffledImage []).SortedByRound live round (Model.runnable ⟨shuffledImage, []⟩ fun _ => false) ∧
      shuffledImage.map round = [2, 1, 1, 1, 2] := by
  have hreach : (Model.mk shuffledImage []).Reachable :=
    Model.reachable_of_consistent ⟨by decide, by decide, by decide, by decide⟩
  have hfirst : (Model.pass ⟨shuffledImage, []⟩ (fun _ => false) 1).taken =
      [shuffledImage[1], shuffledImage[2], shuffledImage[3]] := by cbv
  have hsecond : (Model.pass ⟨shuffledImage, []⟩ (fun _ => false) 2).taken =
      [shuffledImage[0], shuffledImage[4]] := by cbv
  refine ⟨hreach, by cbv, ?_⟩
  obtain ⟨live, round, last, _, _, hr, _, hsorted, htaken, _⟩ :=
    schedule_sorted_by_round ⟨shuffledImage, []⟩ hreach fun _ => false
  have hone (n : Node) (hn : n ∈ [shuffledImage[1], shuffledImage[2], shuffledImage[3]]) : round n = 1 :=
    ((htaken 1 n).mp (hfirst ▸ hn)).2
  have htwo (n : Node) (hn : n ∈ [shuffledImage[0], shuffledImage[4]]) : round n = 2 :=
    ((htaken 2 n).mp (hsecond ▸ hn)).2
  refine ⟨live, round, hr, hsorted, ?_⟩
  have hall : shuffledImage.map round = [round shuffledImage[0], round shuffledImage[1],
      round shuffledImage[2], round shuffledImage[3], round shuffledImage[4]] := rfl
  rw [hall, htwo _ (by simp), hone _ (by simp), hone shuffledImage[2] (by simp), hone _ (by simp),
    htwo _ (by simp)]

end NetLowering
