import Mathlib.Data.List.Forall2
import Mathlib.Data.List.Induction

/-! # Sequences of steps

A run goes through a list and stops at the first step that fails. `foldlM_append_cons_eq_ok` cuts a run
that succeeded at one of its steps, `foldlM_eq_error` finds the step at which a run failed, and
`foldlM_keeps` is the induction along a run. `forall_mem_of_before` is the induction along the list, where
each element may rely on those before it. -/

namespace NetLowering

variable {ε σ α β : Type} {f : σ → α → Except ε σ}

theorem bind_eq_ok_iff {x : Except ε α} {g : α → Except ε β} {b : β} :
    (x >>= g) = .ok b ↔ ∃ a, x = .ok a ∧ g a = .ok b := by
  cases x with
  | ok a =>
      constructor
      · intro h; exact ⟨a, rfl, h⟩
      · rintro ⟨a', ha, h⟩; cases ha; exact h
  | error e =>
      constructor
      · intro h; cases h
      · rintro ⟨a', ha, _⟩; cases ha

theorem foldlM_append_cons_eq_ok {pre post : List α} {a : α} {s s' : σ}
    (h : (pre ++ a :: post).foldlM f s = .ok s') :
    ∃ s₁ s₂, pre.foldlM f s = .ok s₁ ∧ f s₁ a = .ok s₂ ∧ post.foldlM f s₂ = .ok s' := by
  rw [List.foldlM_append, bind_eq_ok_iff] at h
  obtain ⟨s₁, hpre, h⟩ := h
  rw [List.foldlM_cons, bind_eq_ok_iff] at h
  obtain ⟨s₂, ha, hpost⟩ := h
  exact ⟨s₁, s₂, hpre, ha, hpost⟩

theorem foldlM_concat {xs : List α} {a : α} {s s₁ s₂ : σ} (h : xs.foldlM f s = .ok s₁)
    (ha : f s₁ a = .ok s₂) : (xs ++ [a]).foldlM f s = .ok s₂ := by
  rw [List.foldlM_append, bind_eq_ok_iff]
  refine ⟨s₁, h, ?_⟩
  rw [List.foldlM_cons, ha]
  rfl

theorem foldlM_append_cons_of_ok {pre post : List α} {a : α} {s s₁ s₂ : σ} {t : Except ε σ}
    (hpre : pre.foldlM f s = .ok s₁) (ha : f s₁ a = .ok s₂) (hpost : post.foldlM f s₂ = t) :
    (pre ++ a :: post).foldlM f s = t := by
  rw [List.foldlM_append, hpre]
  change (a :: post).foldlM f s₁ = t
  rw [List.foldlM_cons, ha]
  exact hpost

theorem foldlM_append_cons_of_error {pre post : List α} {a : α} {s s₁ : σ} {e : ε}
    (hpre : pre.foldlM f s = .ok s₁) (ha : f s₁ a = .error e) :
    (pre ++ a :: post).foldlM f s = .error e := by
  rw [List.foldlM_append, hpre]
  change (a :: post).foldlM f s₁ = .error e
  rw [List.foldlM_cons, ha]
  rfl

/-- What every step keeps, a sequence of steps keeps. -/
theorem foldlM_keeps {I : σ → Prop} {xs : List α} {s s' : σ}
    (hstep : ∀ a ∈ xs, ∀ s s', I s → f s a = .ok s' → I s') (hs : I s)
    (h : xs.foldlM f s = .ok s') : I s' := by
  induction xs generalizing s with
  | nil => cases h; exact hs
  | cons a rest ih =>
      rw [List.foldlM_cons, bind_eq_ok_iff] at h
      obtain ⟨s₁, ha, h⟩ := h
      exact ih (fun b hb => hstep b (List.mem_cons_of_mem _ hb))
        (hstep a List.mem_cons_self s s₁ hs ha) h

theorem foldlM_eq_error {xs : List α} {s : σ} {e : ε} (h : xs.foldlM f s = .error e) :
    ∃ pre a post s₁, xs = pre ++ a :: post ∧ pre.foldlM f s = .ok s₁ ∧ f s₁ a = .error e := by
  induction xs generalizing s with
  | nil => cases h
  | cons a rest ih =>
      rw [List.foldlM_cons] at h
      cases ha : f s a with
      | error e' =>
          rw [ha] at h
          cases h
          exact ⟨[], a, rest, s, rfl, rfl, ha⟩
      | ok s₁ =>
          rw [ha] at h
          obtain ⟨pre, b, post, s₂, rfl, hpre, hb⟩ := ih h
          refine ⟨a :: pre, b, post, s₂, rfl, ?_, hb⟩
          rw [List.foldlM_cons, ha]
          exact hpre

/-- What holds of each element as soon as it holds of those before it, holds of all. -/
theorem forall_mem_of_before {P : α → Prop} {xs : List α}
    (h : ∀ pre a post, xs = pre ++ a :: post → (∀ b ∈ pre, P b) → P a) : ∀ a ∈ xs, P a := by
  have hprefix : ∀ pre post, xs = pre ++ post → ∀ b ∈ pre, P b := by
    -- on the prefix, which grows at its end
    intro pre
    induction pre using List.reverseRecOn with
    | nil => intro post _ b hb; cases hb
    | append_singleton init a ih =>
        intro post hsplit b hb
        rw [List.append_assoc] at hsplit
        have hinit := ih _ hsplit
        rcases List.mem_append.mp hb with hb | hb
        · exact hinit b hb
        · rw [List.mem_singleton.mp hb]
          exact h init a post hsplit hinit
  exact hprefix xs [] (List.append_nil xs).symm

/-! ### Lists side by side -/

/-- Going through a list gives what its elements give, one each. -/
theorem mapM_eq_ok_iff {f : α → Except ε β} {xs : List α} {ys : List β} :
    xs.mapM f = .ok ys ↔ List.Forall₂ (fun x y => f x = .ok y) xs ys := by
  induction xs generalizing ys with
  | nil =>
      rw [List.mapM_nil, List.forall₂_nil_left_iff]
      exact ⟨fun h => (Except.ok.inj h).symm, fun h => h ▸ rfl⟩
  | cons x rest ih =>
      rw [List.mapM_cons, bind_eq_ok_iff, List.forall₂_cons_left_iff]
      refine exists_congr fun y => ?_
      rw [bind_eq_ok_iff]
      constructor
      · rintro ⟨hx, ys', hrest, hys⟩
        exact ⟨ys', hx, ih.mp hrest, (Except.ok.inj hys).symm⟩
      · rintro ⟨ys', hx, hrest, rfl⟩
        exact ⟨hx, ys', ih.mpr hrest, rfl⟩

/-- The indices of a list up to some number stand for its first elements. -/
theorem forall₂_take {R : α → β → Prop} {xs : List α} {ys : List β} {k : Nat}
    (h : List.Forall₂ (fun i y => ∃ x, xs[i]? = some x ∧ R x y) (List.range k) ys) :
    List.Forall₂ R (xs.take k) ys := by
  obtain ⟨hlen, hget⟩ := List.forall₂_iff_get.mp h
  rw [List.length_range] at hlen
  have hk : k ≤ xs.length := by
    by_contra hlt
    obtain ⟨x, hx, _⟩ := hget (k - 1) (by rw [List.length_range]; omega) (by omega)
    have hindex := (List.getElem?_eq_some_iff.mp hx).1
    simp only [List.get_eq_getElem, List.getElem_range] at hindex
    omega
  refine List.forall₂_iff_get.mpr ⟨by rw [List.length_take]; omega, fun i hi hi' => ?_⟩
  obtain ⟨x, hx, hR⟩ := hget i (by rw [List.length_range]; omega) hi'
  simp only [List.get_eq_getElem, List.getElem_range] at hx hR
  obtain ⟨_, rfl⟩ := List.getElem?_eq_some_iff.mp hx
  simpa using hR

theorem forall₂_set {R : α → α → Prop} {xs : List α} {i : Nat} {x y : α} (h : ∀ z ∈ xs, R z z)
    (hi : xs[i]? = some x) (hxy : R x y) : List.Forall₂ R xs (xs.set i y) := by
  induction xs generalizing i with
  | nil => cases hi
  | cons z rest ih =>
      have hrest : ∀ z ∈ rest, R z z := fun z hz => h z (List.mem_cons_of_mem _ hz)
      cases i with
      | zero =>
          cases hi
          exact .cons hxy (List.forall₂_same.mpr hrest)
      | succ i => exact .cons (h z List.mem_cons_self) (ih hrest hi)

theorem forall₂_concat {R : α → β → Prop} {xs : List α} {x : α} {ys : List β}
    (h : List.Forall₂ R (xs ++ [x]) ys) : ∃ init y, ys = init ++ [y] ∧ List.Forall₂ R xs init ∧ R x y := by
  rw [← List.forall₂_reverse_iff, List.reverse_concat, List.forall₂_cons_left_iff] at h
  obtain ⟨y, rest, hxy, hrest, hys⟩ := h
  refine ⟨rest.reverse, y, ?_, ?_, hxy⟩
  · rw [← List.reverse_reverse ys, hys, List.reverse_cons]
  · rw [← List.forall₂_reverse_iff, List.reverse_reverse]
    exact hrest

/-- A list has one to stand beside it iff each of its elements has a partner. -/
theorem exists_forall₂_iff {R : α → β → Prop} {xs : List α} :
    (∃ ys, List.Forall₂ R xs ys) ↔ ∀ a ∈ xs, ∃ b, R a b := by
  induction xs with
  | nil => simp
  | cons a rest ih =>
      simp only [List.forall₂_cons_left_iff, List.forall_mem_cons, ← ih]
      constructor
      · rintro ⟨_, b, ys, hb, hys, _⟩
        exact ⟨⟨b, hb⟩, ys, hys⟩
      · rintro ⟨⟨b, hb⟩, ys, hys⟩
        exact ⟨b :: ys, b, ys, hb, hys, rfl⟩

theorem exists_mem_of_forall₂ {R : α → β → Prop} {xs : List α} {ys : List β} (h : List.Forall₂ R xs ys) :
    ∀ a ∈ xs, ∃ b ∈ ys, R a b := by
  induction h with
  | nil => simp
  | cons hab _ ih =>
      refine List.forall_mem_cons.mpr ⟨⟨_, List.mem_cons_self, hab⟩, fun a ha => ?_⟩
      obtain ⟨b, hb, hab⟩ := ih a ha
      exact ⟨b, List.mem_cons_of_mem _ hb, hab⟩

theorem map_eq_of_forall₂ {γ : Type} {R : α → β → Prop} {f : α → γ} {g : β → γ} {xs : List α} {ys : List β}
    (hR : ∀ a b, R a b → g b = f a) (h : List.Forall₂ R xs ys) : ys.map g = xs.map f := by
  induction h with
  | nil => rfl
  | cons hab _ ih => rw [List.map_cons, List.map_cons, hR _ _ hab, ih]

/-- A list that stands beside the images of some elements stands beside these elements. -/
theorem exists_map_of_forall₂ {γ : Type} {R : α → β → Prop} {f : β → γ} {xs : List α} {zs : List γ}
    (h : List.Forall₂ (fun x z => ∃ y, R x y ∧ f y = z) xs zs) : ∃ ys, List.Forall₂ R xs ys ∧ ys.map f = zs := by
  induction h with
  | nil => exact ⟨[], .nil, rfl⟩
  | cons hx _ ih =>
      obtain ⟨y, hy, rfl⟩ := hx
      obtain ⟨ys, hys, rfl⟩ := ih
      exact ⟨y :: ys, .cons hy hys, rfl⟩

theorem forall_mem_iff_of_forall₂ {R : α → β → Prop} {P : α → Prop} {Q : β → Prop} {xs : List α} {ys : List β}
    (hR : ∀ a b, R a b → (P a ↔ Q b)) (h : List.Forall₂ R xs ys) : (∀ a ∈ xs, P a) ↔ ∀ b ∈ ys, Q b := by
  induction h with
  | nil => simp
  | cons hab _ ih => rw [List.forall_mem_cons, List.forall_mem_cons, hR _ _ hab, ih]

/-- What is selected of a list stands beside what is selected of its images, if it does element by element. -/
theorem forall₂_filter_flatMap {R : α → β → Prop} {P : α → Bool} {Q : β → Bool} {g : α → List β} {xs : List α}
    (h : ∀ a ∈ xs, List.Forall₂ R ([a].filter P) ((g a).filter Q)) :
    List.Forall₂ R (xs.filter P) ((xs.flatMap g).filter Q) := by
  induction xs with
  | nil => exact .nil
  | cons a rest ih =>
      rw [List.flatMap_cons, List.filter_append, ← List.singleton_append, List.filter_append]
      exact List.rel_append (h a List.mem_cons_self) (ih fun b hb => h b (List.mem_cons_of_mem _ hb))

theorem lookup_cons_eq_ite {κ : Type} [BEq κ] [LawfulBEq κ] [DecidableEq κ] (x : κ) (entry : κ × α)
    (rest : List (κ × α)) :
    (entry :: rest).lookup x = if x = entry.1 then some entry.2 else rest.lookup x := by
  obtain ⟨key, value⟩ := entry
  by_cases hx : x = key
  · simp [hx]
  · rw [List.lookup_cons, beq_false_of_ne hx, if_neg hx]

end NetLowering
