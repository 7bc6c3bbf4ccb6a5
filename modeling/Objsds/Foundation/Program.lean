import Mathlib.Logic.Function.Basic
import Mathlib.Data.List.Basic

namespace Foundation

inductive Program {E : Type} (R : E → Type) (α : Type) where
  | done (a : α)
  | perform (e : E) (next : R e → Program R α)

namespace Program

variable {E : Type} {R : E → Type} {α β γ : Type}

def bind : Program R α → (α → Program R β) → Program R β
  | .done a, f => f a
  | .perform e next, f => .perform e (fun r => (next r).bind f)

def request (e : E) : Program R (R e) := .perform e .done

instance : Monad (Program R) where
  pure := .done
  bind := bind

@[simp] theorem pure_eq (a : α) : (pure a : Program R α) = .done a := rfl

@[simp] theorem done_bind (a : α) (f : α → Program R β) : (Program.done a >>= f) = f a := rfl

@[simp] theorem perform_bind (e : E) (next : R e → Program R α) (f : α → Program R β) :
    (Program.perform e next >>= f) = .perform e (fun r => next r >>= f) := rfl

@[simp] theorem request_bind (e : E) (f : R e → Program R β) :
    ((request e : Program R (R e)) >>= f) = .perform e f := rfl

theorem bind_done (p : Program R α) : (p >>= Program.done) = p := by
  induction p with
  | done a => rfl
  | perform e next ih =>
      rw [perform_bind]
      exact congrArg _ (funext ih)

theorem bind_assoc (p : Program R α) (f : α → Program R β) (g : β → Program R γ) :
    (p >>= f >>= g) = (p >>= fun a => f a >>= g) := by
  induction p with
  | done a => rfl
  | perform e next ih =>
      simp only [perform_bind]
      exact congrArg _ (funext ih)

instance : LawfulMonad (Program R) :=
  LawfulMonad.mk' _ bind_done (fun _ _ => rfl) bind_assoc

inductive Follows : Program R α → List (Sigma R) → Program R α → Prop
  | refl (p : Program R α) : Follows p [] p
  | step {e : E} {next : R e → Program R α} {r : R e} {h : List (Sigma R)} {q : Program R α} :
      Follows (next r) h q → Follows (.perform e next) (⟨e,r⟩ :: h) q

@[simp] theorem follows_nil {p q : Program R α} : Follows p [] q ↔ q = p := by
  constructor
  · intro h
    cases h
    rfl
  · rintro rfl
    exact .refl _

@[simp] theorem follows_done {a : α} {h : List (Sigma R)} {q : Program R α} :
    Follows (.done a) h q ↔ h = [] ∧ q = .done a := by
  constructor
  · intro hf
    cases hf
    exact ⟨rfl,rfl⟩
  · rintro ⟨rfl,rfl⟩
    exact .refl _

theorem follows_perform {e : E} {next : R e → Program R α} {h : List (Sigma R)}
    {q : Program R α} :
    Follows (.perform e next) h q ↔
      (h = [] ∧ q = .perform e next) ∨ ∃ r h', h = ⟨e,r⟩ :: h' ∧ Follows (next r) h' q := by
  constructor
  · intro hf
    cases hf with
    | refl => exact .inl ⟨rfl,rfl⟩
    | step hs => exact .inr ⟨_,_,rfl,hs⟩
  · rintro (⟨rfl,rfl⟩ | ⟨r,h',rfl,hs⟩)
    · exact .refl _
    · exact .step hs

theorem follows_append {p q : Program R α} {h h' : List (Sigma R)} :
    Follows p (h ++ h') q ↔ ∃ m, Follows p h m ∧ Follows m h' q := by
  induction h generalizing p with
  | nil => simp
  | cons x h ih =>
      constructor
      · intro hf
        cases hf with
        | step hs =>
            obtain ⟨m,hm,hq⟩ := ih.mp hs
            exact ⟨m,.step hm,hq⟩
      · rintro ⟨m,hm,hq⟩
        cases hm with
        | step hs => exact .step (ih.mpr ⟨m,hs,hq⟩)

theorem follows_snoc {p q : Program R α} {h : List (Sigma R)} {e : E} {r : R e} :
    Follows p (h ++ [⟨e,r⟩]) q ↔ ∃ next, Follows p h (.perform e next) ∧ q = next r := by
  rw [follows_append]
  constructor
  · rintro ⟨m,hm,hq⟩
    cases hq with
    | step hs => exact ⟨_,hm,follows_nil.mp hs⟩
  · rintro ⟨next,hm,rfl⟩
    exact ⟨_,hm,.step (.refl _)⟩

theorem Follows.unique {p q q' : Program R α} {h : List (Sigma R)} (hq : Follows p h q)
    (hq' : Follows p h q') : q = q' := by
  induction hq with
  | refl p => exact (follows_nil.mp hq').symm
  | step _ ih =>
      cases hq' with
      | step hs => exact ih hs

def Only (P : E → Prop) : Program R α → Prop
  | .done _ => True
  | .perform e next => P e ∧ ∀ r, (next r).Only P

theorem Only.mono {P Q : E → Prop} {p : Program R α} (h : p.Only P) (hpq : ∀ e, P e → Q e) :
    p.Only Q := by
  induction p with
  | done a => trivial
  | perform e next ih => exact ⟨hpq e h.1,fun r => ih r (h.2 r)⟩

theorem Only.map {P : E → Prop} {p : Program R α} {f : α → β} (h : p.Only P) :
    (f <$> p).Only P := by
  induction p with
  | done a => trivial
  | perform e next ih => exact ⟨h.1,fun r => ih r (h.2 r)⟩

theorem Only.bind {P : E → Prop} {p : Program R α} {f : α → Program R β} (h : p.Only P)
    (hf : ∀ a, (f a).Only P) : (p >>= f).Only P := by
  induction p with
  | done a => exact hf a
  | perform e next ih => exact ⟨h.1,fun r => ih r (h.2 r)⟩

theorem Only.follows {P : E → Prop} {p q : Program R α} {h : List (Sigma R)} (hp : p.Only P)
    (hf : Follows p h q) : q.Only P := by
  induction hf with
  | refl p => exact hp
  | step _ ih => exact ih (hp.2 _)

theorem Only.mem {P : E → Prop} {p q : Program R α} {h : List (Sigma R)} (hp : p.Only P)
    (hf : Follows p h q) : ∀ x ∈ h, P x.1 := by
  induction hf with
  | refl p => simp
  | step _ ih => exact List.forall_mem_cons.mpr ⟨hp.1,ih (hp.2 _)⟩

theorem completes (p : Program R α) (reply : (e : E) → R e) :
    ∃ h a, p.Follows h (.done a) ∧ ∀ x ∈ h, x.2 = reply x.1 := by
  induction p with
  | done a => exact ⟨[],a,.refl _,by simp⟩
  | perform e next ih =>
      obtain ⟨h,a,hf,hr⟩ := ih (reply e)
      refine ⟨⟨e,reply e⟩ :: h,a,.step hf,?_⟩
      intro x hx
      rcases List.mem_cons.mp hx with rfl | hx
      · rfl
      · exact hr x hx

theorem follows_bind {p : Program R α} {f : α → Program R β} {h : List (Sigma R)}
    {q : Program R β} (hf : Follows (p >>= f) h q) :
    (∃ m, Follows p h m ∧ q = m >>= f) ∨
      ∃ h₁ h₂ a, h = h₁ ++ h₂ ∧ Follows p h₁ (.done a) ∧ Follows (f a) h₂ q := by
  induction p generalizing h with
  | done a => exact .inr ⟨[],h,a,rfl,.refl _,hf⟩
  | perform e next ih =>
      rw [perform_bind] at hf
      rcases follows_perform.mp hf with ⟨rfl,rfl⟩ | ⟨r,h',rfl,hs⟩
      · exact .inl ⟨_,.refl _,rfl⟩
      · rcases ih r hs with ⟨m,hm,rfl⟩ | ⟨h₁,h₂,a,rfl,h₁f,h₂f⟩
        · exact .inl ⟨m,.step hm,rfl⟩
        · exact .inr ⟨⟨e,r⟩ :: h₁,h₂,a,rfl,.step h₁f,h₂f⟩

theorem follows_bind_done {p : Program R α} {f : α → Program R β} {h : List (Sigma R)} {a : α}
    (hf : Follows p h (.done a)) : Follows (p >>= f) h (f a) := by
  generalize hq : (.done a : Program R α) = q at hf
  induction hf with
  | refl p =>
      subst hq
      exact .refl _
  | step _ ih => exact .step (ih hq)

theorem follows_map {p : Program R α} {f : α → β} {h : List (Sigma R)} {q : Program R β} :
    Follows (f <$> p) h q ↔ ∃ m, Follows p h m ∧ f <$> m = q := by
  constructor
  · intro hf
    rw [map_eq_pure_bind] at hf
    rcases follows_bind hf with ⟨m,hm,rfl⟩ | ⟨h₁,h₂,a,rfl,hp,hd⟩
    · exact ⟨m,hm,map_eq_pure_bind ..⟩
    · obtain ⟨rfl,rfl⟩ := follows_done.mp hd
      rw [List.append_nil]
      exact ⟨.done a,hp,rfl⟩
  · rintro ⟨m,hp,rfl⟩
    induction hp with
    | refl p => exact .refl _
    | step _ ih => exact .step ih

theorem map_eq_done {p : Program R α} {f : α → β} {b : β} :
    f <$> p = .done b ↔ ∃ a, p = .done a ∧ f a = b := by
  rw [map_eq_pure_bind]
  cases p <;> simp

theorem follows_map_done {p : Program R α} {f : α → β} {h : List (Sigma R)} {b : β} :
    Follows (f <$> p) h (.done b) ↔ ∃ a, Follows p h (.done a) ∧ f a = b := by
  rw [follows_map]
  constructor
  · rintro ⟨m,hm,hb⟩
    obtain ⟨a,rfl,ha⟩ := map_eq_done.mp hb
    exact ⟨a,hm,ha⟩
  · rintro ⟨a,ha,rfl⟩
    exact ⟨.done a,ha,rfl⟩

theorem map_eq_perform {p : Program R α} {f : α → β} {e : E} {next : R e → Program R β} :
    f <$> p = .perform e next ↔ ∃ next', p = .perform e next' ∧ (fun r => f <$> next' r) = next := by
  constructor
  · intro h
    cases p with
    | done a => simp [map_eq_pure_bind] at h
    | perform e' next' =>
        obtain ⟨rfl,hn⟩ := Program.perform.inj h
        exact ⟨next',rfl,eq_of_heq hn⟩
  · rintro ⟨next',rfl,rfl⟩
    rfl

end Program

end Foundation
