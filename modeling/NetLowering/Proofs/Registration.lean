import Mathlib.Logic.Function.Basic
import NetLowering.Proofs.Propagation
import NetLowering.Proofs.Run

/-! # Registries after any edits

A registry is made by registering blocks, each in place of the one its kind had before, and by copying a
registry to go on with the copy. Its list of kinds and its lookup read the same table, but not by the same
rule: a kind is listed as soon as a block was registered for it, and found only if that block has a converter.
`Registry.Base.assigned` says without the table which block each kind was given last, and both are described
by it (`Registry.Reflects`): they agree iff no kind was given a block without converters, and the kinds a
plan is refused for are the ones that are not found, `skip` apart (`Registry.kinds_agree_with_lookup_iff`). -/

namespace NetLowering

theorem OpKind.ofCode_code (kind : OpKind) : ofCode kind.code = kind := by
  cases kind with
  | unlisted code outside => exact dif_pos outside
  | _ => rfl

theorem OpKind.code_injective : Function.Injective code := Function.LeftInverse.injective ofCode_code

namespace Registry

/-! ### Tables of blocks -/

section tables
variable {entries : List (OpKind × Block)} {kind : OpKind} {block : Block}

/-- The kinds of the entries are in vocabulary order, each once. -/
def InOrder (entries : List (OpKind × Block)) : Prop := entries.Pairwise fun a b => a.1.code < b.1.code

theorem mem_place {entry : OpKind × Block} (h : entry ∈ place kind block entries) :
    entry = (kind, block) ∨ entry ∈ entries := by
  induction entries with
  | nil => simpa [place] using h
  | cons first rest ih =>
      unfold place at h
      split at h
      · rcases List.mem_cons.mp h with rfl | h
        · exact .inl rfl
        · exact .inr (List.mem_cons_of_mem _ h)
      · split at h
        · exact List.mem_cons.mp h
        · rcases List.mem_cons.mp h with rfl | h
          · exact .inr List.mem_cons_self
          · exact (ih h).imp_right (List.mem_cons_of_mem _)

theorem InOrder.place (h : InOrder entries) : InOrder (place kind block entries) := by
  induction entries with
  | nil => exact List.pairwise_singleton _ _
  | cons first rest ih =>
      obtain ⟨hfirst, hrest⟩ := List.pairwise_cons.mp h
      unfold Registry.place
      split
      · rename_i hsame
        subst hsame
        exact List.pairwise_cons.mpr ⟨hfirst, hrest⟩
      · rename_i hne
        split
        · rename_i hlt
          refine List.pairwise_cons.mpr ⟨fun e he => ?_, h⟩
          rcases List.mem_cons.mp he with rfl | he
          · exact hlt
          · exact Int64.lt_trans hlt (hfirst e he)
        · rename_i hge
          refine List.pairwise_cons.mpr ⟨fun e he => ?_, ih hrest⟩
          rcases mem_place he with rfl | he
          · exact Int64.lt_of_le_of_ne (Int64.not_lt.mp hge) fun heq => hne (OpKind.code_injective heq.symm)
          · exact hfirst e he

/-- A block is found under its kind, and the other blocks as before. -/
theorem lookup_place (kind : OpKind) (block : Block) (entries : List (OpKind × Block)) (other : OpKind) :
    (place kind block entries).lookup other =
      if other = kind then some block else entries.lookup other := by
  induction entries with
  | nil => exact lookup_cons_eq_ite _ _ _
  | cons first rest ih =>
      unfold place
      split
      · rename_i hsame
        rw [lookup_cons_eq_ite, lookup_cons_eq_ite, ← hsame]
        split <;> rfl
      · rename_i hne
        split
        · exact lookup_cons_eq_ite _ _ _
        · rw [lookup_cons_eq_ite, lookup_cons_eq_ite, ih]
          by_cases h : other = first.1
          · rw [if_pos h, if_pos h, if_neg (h.trans_ne (Ne.symm hne))]
          · rw [if_neg h, if_neg h]

theorem lookup_isSome_iff : (∃ b, entries.lookup kind = some b) ↔ kind ∈ entries.map Prod.fst := by
  induction entries with
  | nil => simp
  | cons first rest ih =>
      rw [lookup_cons_eq_ite, List.map_cons, List.mem_cons, ← ih]
      by_cases h : kind = first.1
      · simp [h]
      · simp [h]

theorem place_of_lt (h : ∀ e ∈ entries, e.1.code < kind.code) :
    place kind block entries = entries ++ [(kind, block)] := by
  induction entries with
  | nil => rfl
  | cons first rest ih =>
      have hlt := h first List.mem_cons_self
      unfold place
      rw [if_neg (fun heq => Int64.lt_irrefl (heq ▸ hlt)), if_neg (Int64.lt_asymm hlt),
        ih fun e he => h e (List.mem_cons_of_mem _ he), List.cons_append]

/-- Blocks in order are registered one after the other at the end. -/
theorem foldl_register {done : List (OpKind × Block)} (h : InOrder (done ++ entries)) :
    entries.foldl (fun (copy : Registry) entry => copy.register entry.1 entry.2) ⟨done⟩ =
      ⟨done ++ entries⟩ := by
  induction entries generalizing done with
  | nil => rw [List.append_nil]; rfl
  | cons first rest ih =>
      have hlast : ∀ e ∈ done, e.1.code < first.1.code := fun e he =>
        (List.pairwise_append.mp h).2.2 e he first List.mem_cons_self
      rw [List.append_cons] at h ⊢
      rw [List.foldl_cons, register, place_of_lt hlast]
      exact ih h

end tables

theorem clone_eq {r : Registry} (h : InOrder r.blocks) : r.clone = r := foldl_register h

/-! ### Edits -/

/-- What a caller does to a registry: set the block of a kind, or go on with a copy. -/
inductive Edit where
  | register (kind : OpKind) (block : Block)
  | clone

def edit (r : Registry) : Edit → Registry
  | .register kind block => r.register kind block
  | .clone => r.clone

/-- The block that an edit gives to a kind. -/
def Edit.block? (kind : OpKind) : Edit → Option Block
  | .register other block => if kind = other then some block else none
  | .clone => none

/-- The registries to start from. -/
inductive Base where
  | empty
  | standard

namespace Base

def registry : Base → Registry
  | .empty => .empty
  | .standard => .standard

/-- The block a kind has from the start. -/
def block? : Base → OpKind → Option Block
  | .empty, _ => none
  | .standard, kind => if standardBlock kind = [] then none else some (standardBlock kind)

def after (base : Base) (edits : List Edit) : Registry := edits.foldl edit base.registry

/-- The block that a kind was given last. -/
def assigned (base : Base) (edits : List Edit) (kind : OpKind) : Option Block :=
  edits.foldl (fun last e => (e.block? kind).or last) (base.block? kind)

end Base

/-- The table of a registry holds these blocks, in vocabulary order. -/
structure Reflects (r : Registry) (blocks : OpKind → Option Block) : Prop where
  ordered : InOrder r.blocks
  lookup : ∀ kind, r.blocks.lookup kind = blocks kind

namespace Reflects

variable {r : Registry} {blocks : OpKind → Option Block}

theorem edit (h : r.Reflects blocks) (e : Edit) :
    (r.edit e).Reflects fun kind => (e.block? kind).or (blocks kind) := by
  cases e with
  | register kind block =>
      refine ⟨h.ordered.place, fun other => ?_⟩
      refine (lookup_place kind block r.blocks other).trans ?_
      rw [h.lookup]
      by_cases hsame : other = kind
      · simp [Edit.block?, hsame]
      · simp [Edit.block?, hsame]
  | clone =>
      have hclone : r.edit .clone = r := clone_eq h.ordered
      rw [hclone]
      exact h

theorem foldl_edit (h : r.Reflects blocks) (edits : List Edit) :
    (edits.foldl Registry.edit r).Reflects fun kind =>
      edits.foldl (fun last e => (e.block? kind).or last) (blocks kind) := by
  induction edits generalizing r blocks with
  | nil => exact h
  | cons e rest ih => exact ih (h.edit e)

theorem mem_kinds_iff (h : r.Reflects blocks) {kind : OpKind} :
    kind ∈ r.kinds ↔ ∃ block, blocks kind = some block := by
  rw [← h.lookup]
  exact lookup_isSome_iff.symm

theorem lookup_eq_ok_iff (h : r.Reflects blocks) {kind : OpKind} {block : Block} :
    r.lookup kind = .ok block ↔ blocks kind = some block ∧ block ≠ [] := by
  unfold Registry.lookup
  rw [h.lookup]
  rcases blocks kind with _ | _ | ⟨cv, rest⟩
  · simp [fail]
  · simp [fail]
  · simp only [Except.ok.injEq, Option.some.injEq, iff_self_and]
    rintro rfl
    simp

end Reflects

/-! ### What to start from -/

theorem lookup_map (kinds : List OpKind) (block : OpKind → Block) (kind : OpKind) :
    (kinds.map fun k => (k, block k)).lookup kind = if kind ∈ kinds then some (block kind) else none := by
  induction kinds with
  | nil => rfl
  | cons first rest ih =>
      rw [List.map_cons, lookup_cons_eq_ite, ih]
      by_cases h : kind = first
      · simp [h]
      · simp [h]

theorem vocabulary_in_order : OpKind.vocabulary.Pairwise fun a b => a.code < b.code := by decide

theorem mem_vocabulary_of_block {kind : OpKind} (h : standardBlock kind ≠ []) :
    kind ∈ OpKind.vocabulary := by
  cases kind with
  | invalid | skip | gru | lstm | region | vad | unlisted => exact absurd rfl h
  | _ => decide

theorem Base.reflects (base : Base) : base.registry.Reflects base.block? := by
  cases base with
  | empty => exact ⟨.nil, fun _ => rfl⟩
  | standard =>
      refine ⟨List.pairwise_map.mpr (vocabulary_in_order.filter _), fun kind => ?_⟩
      refine (lookup_map _ _ kind).trans ?_
      by_cases h : standardBlock kind = []
      · simp [block?, h]
      · simp [block?, h, mem_vocabulary_of_block h]

theorem Base.after_reflects (base : Base) (edits : List Edit) :
    (base.after edits).Reflects (base.assigned edits) := base.reflects.foldl_edit edits

end Registry

/-! ### Kinds a plan is refused for -/

/-- Some plan fails at a node of the kind because there is no converter for it. -/
def RejectsKind (o : Options) (kind : OpKind) : Prop :=
  ∃ name m n e, m.Reachable ∧ n ∈ m.nodes ∧ n.kind = kind ∧ plan o name m = .error e ∧
    e.node? = some (n.id, n.kind) ∧ e.class? = some .unsupportedOperation

theorem Cause.eq_noConverter {cause : Cause} (h : cause.class? = some .unsupportedOperation) :
    ∃ kind, cause = .noConverter kind := by
  cases cause with
  | noConverter kind => exact ⟨kind, rfl⟩
  | _ => simp [Cause.class?] at h

section rejections
variable {o : Options} {m : Model} {name : String} {e : Error}

/-- A plan that fails for lack of a converter fails at a node whose kind is not found. -/
theorem plan_unsupported (h : plan o name m = .error e) (hclass : e.class? = some .unsupportedOperation) :
    ∃ n ∈ m.nodes, n.kind ≠ .skip ∧ e.node? = some (n.id, n.kind) ∧ e.cause = .noConverter n.kind ∧
      ∀ block, o.registry.lookup n.kind ≠ .ok block := by
  obtain ⟨kind, hcause⟩ := Cause.eq_noConverter hclass
  rcases plan_eq_error h with herr | hnone | ⟨paddings, pre, n, post, start, r, halt, _, horder, _, _, hn,
    rfl⟩
  · obtain ⟨first, other, hambiguous⟩ := propagate_eq_error herr
    rw [hambiguous] at hcause
    cases hcause
  · rw [hnone] at hcause
    cases hcause
  · obtain ⟨hnode, hcases⟩ := lowerNode_eq_error hn
    have hmem : n ∈ (scheduleWithout m paddings.isCyclic).order := by
      rw [horder]
      exact List.mem_append_right _ List.mem_cons_self
    obtain ⟨hnodes, hskip, _⟩ := mem_of_mem_order hmem
    refine ⟨n, hnodes, hskip, hnode, ?_⟩
    rcases hcases with ⟨hlookup, hkind⟩ | hforeseen | ⟨_, _, _, _, _, _, _, _, hnothing⟩
    · exact ⟨hkind, hlookup⟩
    · rw [hcause] at hforeseen
      exact hforeseen.elim
    · rw [hcause] at hnothing
      cases hnothing

theorem lowerNode_unsupported {paddings : Propagation} {r : Run} {n : Node}
    (h : ∀ block, o.registry.lookup n.kind ≠ .ok block) :
    ∃ halt, r.lowerNode o m paddings n = .error halt ∧ halt.error.cause = .noConverter n.kind := by
  cases hlookup : o.registry.lookup n.kind with
  | ok block => exact absurd hlookup (h block)
  | error e =>
      unfold Run.lowerNode
      rw [hlookup]
      exact ⟨_, rfl, congrArg Error.cause (Registry.lookup_eq_error hlookup)⟩

/-- A node of a kind. -/
def sample (kind : OpKind) : Node := { id := "sample", kind, outputs := ["x"] }

/-- A reader of a `sample`, without which an input would be left out. -/
def sampleReader : Node := { id := "reader", kind := .relu, inputs := ["x"] }

def sampleModel (kind : OpKind) : Model where
  nodes := [sample kind, sampleReader]

theorem sampleModel_reachable (kind : OpKind) : (sampleModel kind).Reachable :=
  Model.reachable_of_consistent ⟨by simp [sample, sampleReader], by simp [sample, sampleReader],
    by simp [sampleReader], by simp [sample, sampleReader, Padding.absent]⟩

theorem propagate_sampleModel (strict : Bool) (kind : OpKind) :
    ∃ paddings, propagate strict (sampleModel kind) = .ok paddings ∧ paddings.cyclic = [] := by
  have hreaders : (sampleModel kind).readers (sample kind) = [sampleReader] := by
    simp [Model.readers, Node.firstOutput?, Model.consumers, sampleModel, sample, sampleReader]
  have hsample : (sampleModel kind).requirements (sample kind) = some [.absent] := by
    rw [Model.requirements, hreaders]
    simp [Model.requirementsOf, sampleReader, OpKind.isTransparent]
  have hreader : (sampleModel kind).requirements sampleReader = some [] := by
    simp [Model.requirements, Model.readers, Node.firstOutput?, sampleReader, Model.requirementsOf]
  refine ⟨⟨[("sample", .absent), ("reader", .absent)], [], []⟩, ?_, rfl⟩
  have hnodes : (sampleModel kind).nodes = [sample kind, sampleReader] := rfl
  unfold propagate
  rw [hnodes, List.foldlM_cons, Propagation.visit, hsample]
  change [sampleReader].foldlM (Propagation.visit strict (sampleModel kind)) _ = _
  rw [List.foldlM_cons, Propagation.visit, hreader]
  rfl

theorem order_sampleModel {kind : OpKind} (hkind : kind ≠ .skip) {paddings : Propagation}
    (h : paddings.cyclic = []) :
    (scheduleWithout (sampleModel kind) paddings.isCyclic).order = [sample kind, sampleReader] := by
  have hcandidates : ((sampleModel kind).nodes.filter fun n => n.kind ≠ .skip && !paddings.isCyclic n.id) =
      [sample kind, sampleReader] := by
    simp [sampleModel, sample, sampleReader, Propagation.isCyclic, h, hkind]
  have hsweep : sweep [] [sample kind, sampleReader] = ⟨[sample kind, sampleReader], [], ["x"]⟩ := by
    simp [sample, sampleReader, sweep, Node.isReady]
  have htaken : (settle [] [sample kind, sampleReader]).taken = [sample kind, sampleReader] := by
    rw [settle_of_sweep hsweep (List.cons_ne_nil _ _), settle_of_nil rfl]
    rfl
  unfold scheduleWithout
  dsimp only
  rw [hcandidates, htaken]
  simp [sample, sampleReader, Node.isDeadInput, Node.firstOutput?]

theorem rejectsKind_iff (o : Options) (kind : OpKind) :
    RejectsKind o kind ↔ kind ≠ .skip ∧ ∀ block, o.registry.lookup kind ≠ .ok block := by
  constructor
  · rintro ⟨name, m, n, e, _, _, rfl, h, hnode, hclass⟩
    obtain ⟨k, _, hskip, hnode', _, hlookup⟩ := plan_unsupported h hclass
    have hkind : n.kind = k.kind := congrArg Prod.snd (Option.some.inj (hnode.symm.trans hnode'))
    rw [hkind]
    exact ⟨hskip, hlookup⟩
  · rintro ⟨hskip, hlookup⟩
    obtain ⟨paddings, hpad, hcyclic⟩ := propagate_sampleModel o.strictPadding kind
    have horder : (scheduleWithout (sampleModel kind) paddings.isCyclic).order =
        [] ++ sample kind :: [sampleReader] := order_sampleModel hskip hcyclic
    obtain ⟨e, he, hcause⟩ := exists_error "run" (P := fun cause => cause = .noConverter kind) hpad horder
      fun start _ => ⟨start, (lowerNode_unsupported hlookup).imp fun halt hhalt => ⟨rfl, hhalt⟩⟩
    have hclass : e.class? = some .unsupportedOperation := congrArg Cause.class? hcause
    obtain ⟨n, hn, _, hnode, hcause', _⟩ := plan_unsupported he hclass
    rw [hcause] at hcause'
    cases hcause'
    exact ⟨"run", _, n, e, sampleModel_reachable _, hn, rfl, he, hnode, hclass⟩

end rejections

/-- After any edits the kinds of a registry are listed in vocabulary order, and the list is of those that were
given a block. A kind is found under the block it was given last, if that has a converter. So list and lookup
agree iff no kind was left with a block without converters; and plans are refused for the kinds that are not
found, but for `skip`, which is never lowered. -/
theorem Registry.kinds_agree_with_lookup_iff (base : Registry.Base) (edits : List Registry.Edit) :
    (base.after edits).kinds.Pairwise (fun a b => a.code < b.code) ∧
    (∀ kind, kind ∈ (base.after edits).kinds ↔ ∃ block, base.assigned edits kind = some block) ∧
    (∀ kind block, (base.after edits).lookup kind = .ok block ↔
      base.assigned edits kind = some block ∧ block ≠ []) ∧
    ((∀ kind, kind ∈ (base.after edits).kinds ↔ ∃ block, (base.after edits).lookup kind = .ok block) ↔
      ∀ kind, base.assigned edits kind ≠ some []) ∧
    ∀ (o : Options) kind, RejectsKind { o with registry := base.after edits } kind ↔
      kind ≠ .skip ∧ ∀ block, (base.after edits).lookup kind ≠ .ok block := by
  have h := base.after_reflects edits
  refine ⟨List.pairwise_map.mpr h.ordered, fun kind => h.mem_kinds_iff, fun kind block => h.lookup_eq_ok_iff,
    ⟨fun hagree kind hnil => ?_, fun hnone kind => ?_⟩, fun o kind => rejectsKind_iff _ kind⟩
  · obtain ⟨block, hblock⟩ := (hagree kind).mp (h.mem_kinds_iff.mpr ⟨[], hnil⟩)
    obtain ⟨hassigned, hne⟩ := h.lookup_eq_ok_iff.mp hblock
    rw [hnil] at hassigned
    cases hassigned
    exact hne rfl
  · rw [h.mem_kinds_iff]
    refine exists_congr fun block => ?_
    rw [h.lookup_eq_ok_iff, iff_self_and]
    rintro hblock rfl
    exact hnone kind hblock

/-- A kind registered without converters, in a registry that is then copied. -/
def Registry.gruWithoutConverters : List Registry.Edit := [.register .gru [], .clone]

/-- The kind is listed all the same, and plans are refused for it. -/
theorem Registry.kinds_disagree_gruWithoutConverters :
    OpKind.gru ∈ (Base.standard.after gruWithoutConverters).kinds ∧
      (∀ block, (Base.standard.after gruWithoutConverters).lookup .gru ≠ .ok block) ∧
      ∀ o : Options, RejectsKind { o with registry := Base.standard.after gruWithoutConverters } .gru := by
  obtain ⟨_, hkinds, hlookup, _, hrejects⟩ := kinds_agree_with_lookup_iff .standard gruWithoutConverters
  have hassigned : Base.standard.assigned gruWithoutConverters .gru = some [] := rfl
  have hmissing : ∀ block, (Base.standard.after gruWithoutConverters).lookup .gru ≠ .ok block := by
    intro block hblock
    obtain ⟨hsame, hne⟩ := (hlookup _ _).mp hblock
    rw [hassigned] at hsame
    exact hne (Option.some.inj hsame).symm
  exact ⟨(hkinds _).mpr ⟨[], hassigned⟩, hmissing, fun o => (hrejects o _).mpr ⟨by decide, hmissing⟩⟩

end NetLowering
