import Mathlib.Data.List.Forall2

namespace Foundation

section Results

variable {α β E E' : Type}

@[simp] theorem except_ok_bind (a : α) (f : α → Except E β) :
    ((Except.ok a : Except E α) >>= f) = f a := rfl

@[simp] theorem except_error_bind (e : E) (f : α → Except E β) :
    ((Except.error e : Except E α) >>= f) = .error e := rfl

@[simp] theorem except_pure (a : α) : (pure a : Except E α) = .ok a := rfl

@[simp] theorem except_map_ok (a : α) (f : α → β) :
    (Except.ok a : Except E α).map f = .ok (f a) := rfl

@[simp] theorem except_map_error (e : E) (f : α → β) :
    (Except.error e : Except E α).map f = .error e := rfl

@[simp] theorem except_mapError_ok (a : α) (f : E → E') :
    (Except.ok a : Except E α).mapError f = .ok a := rfl

@[simp] theorem except_mapError_error (e : E) (f : E → E') :
    (Except.error e : Except E α).mapError f = .error (f e) := rfl

theorem except_bind_eq_ok {x : Except E α} {f : α → Except E β} {b : β} :
    (x >>= f) = .ok b ↔ ∃ a, x = .ok a ∧ f a = .ok b := by
  cases x <;> simp

theorem except_bind_eq_error {x : Except E α} {f : α → Except E β} {e : E} :
    (x >>= f) = .error e ↔ x = .error e ∨ ∃ a, x = .ok a ∧ f a = .error e := by
  cases x <;> simp

theorem except_mapError_eq_ok {x : Except E α} {f : E → E'} {a : α} :
    x.mapError f = .ok a ↔ x = .ok a := by
  cases x <;> simp

theorem except_mapError_eq_error {x : Except E α} {f : E → E'} {e : E'} :
    x.mapError f = .error e ↔ ∃ e', x = .error e' ∧ f e' = e := by
  cases x <;> simp

theorem except_map_eq_error {x : Except E α} {f : α → β} {e : E} :
    x.map f = .error e ↔ x = .error e := by
  cases x <;> simp

theorem except_map_eq_ok {x : Except E α} {f : α → β} {b : β} :
    x.map f = .ok b ↔ ∃ a, x = .ok a ∧ f a = b := by
  cases x <;> simp

theorem except_toOption_eq_some {x : Except E α} {a : α} : x.toOption = some a ↔ x = .ok a := by
  cases x <;> simp [Except.toOption]

end Results

section Sequences

variable {α β : Type} {E : Type}

theorem mapM_roundTrip {f : α → Except E β} {g : β → Except E α} {P : β → Prop} {xs : List α}
    (h : ∀ x ∈ xs, ∃ y, f x = .ok y ∧ P y ∧ g y = .ok x) :
    ∃ ys, xs.mapM f = .ok ys ∧ (∀ y ∈ ys, P y) ∧ ys.mapM g = .ok xs := by
  induction xs with
  | nil => exact ⟨[],rfl,by simp,rfl⟩
  | cons x xs ih =>
      obtain ⟨y,hf,hp,hg⟩ := h x (by simp)
      obtain ⟨ys,hfs,hps,hgs⟩ := ih (fun x hx => h x (by simp [hx]))
      refine ⟨y :: ys,?_,?_,?_⟩
      · rw [List.mapM_cons,hf,hfs]
        rfl
      · simpa using ⟨hp,hps⟩
      · rw [List.mapM_cons,hg,hgs]
        rfl

theorem mapM_total {f : α → Except E β} {xs : List α} (h : ∀ x ∈ xs, ∃ y, f x = .ok y) :
    ∃ ys, xs.mapM f = .ok ys := by
  induction xs with
  | nil => exact ⟨[],rfl⟩
  | cons x xs ih =>
      obtain ⟨y,hy⟩ := h x (by simp)
      obtain ⟨ys,hys⟩ := ih (fun x hx => h x (by simp [hx]))
      exact ⟨y :: ys,by rw [List.mapM_cons,hy,hys]; rfl⟩

theorem mapM_ok_iff {f : α → Except E β} {xs : List α} {ys : List β} :
    xs.mapM f = .ok ys ↔ List.Forall₂ (fun x y => f x = .ok y) xs ys := by
  induction xs generalizing ys with
  | nil =>
      constructor
      · intro h
        cases h
        exact .nil
      · intro h
        cases h
        rfl
  | cons x xs ih =>
      rw [List.mapM_cons]
      constructor
      · intro h
        cases hx : f x with
        | error e => simp [hx,bind,Except.bind] at h
        | ok y =>
            cases hxs : xs.mapM f with
            | error e => simp [hx,hxs,bind,Except.bind] at h
            | ok zs =>
                simp only [hx,hxs,bind,Except.bind,pure,Except.pure,Except.ok.injEq] at h
                subst h
                exact .cons hx (ih.mp hxs)
      · intro h
        cases h with
        | cons hx hxs =>
            rw [hx,ih.mpr hxs]
            rfl

theorem forall₂_right {R : α → β → Prop} {xs : List α} {ys : List β}
    (h : List.Forall₂ R xs ys) {y : β} (hy : y ∈ ys) : ∃ x ∈ xs, R x y := by
  induction h with
  | nil => simp at hy
  | cons hab _ ih =>
      rcases List.mem_cons.mp hy with rfl | hy
      · exact ⟨_,List.mem_cons_self ..,hab⟩
      · obtain ⟨x,hx,hr⟩ := ih hy
        exact ⟨x,List.mem_cons_of_mem _ hx,hr⟩

theorem mapM_mem {f : α → Except E β} {xs : List α} {ys : List β}
    (h : xs.mapM f = .ok ys) {x : α} (hx : x ∈ xs) : ∃ y ∈ ys, f x = .ok y :=
  forall₂_right (mapM_ok_iff.mp h).flip hx

end Sequences

end Foundation
