import Objsds.Foundation.Pool

namespace Foundation

variable {E : Type} {R : E → Type} {α β W σ : Type}

structure Protocol (R : E → Type) (σ : Type) where
  allows : σ → E → Prop
  next : σ → (e : E) → R e → σ

namespace Protocol

variable (K : Protocol R σ)

def after (s : σ) (h : List (Sigma R)) : σ := h.foldl (fun s x => K.next s x.1 x.2) s

@[simp] theorem after_nil (s : σ) : K.after s [] = s := rfl

theorem after_snoc (s : σ) (h : List (Sigma R)) (x : Sigma R) :
    K.after s (h ++ [x]) = K.next (K.after s h) x.1 x.2 := by
  simp [after]

-- The program keeps to the protocol, and `post` holds of what it returns and of where that leaves it.
def Obeys (post : α → σ → Prop) : Program R α → σ → Prop
  | .done a, s => post a s
  | .perform e next, s => K.allows s e ∧ ∀ r, Obeys post (next r) (K.next s e r)

namespace Obeys

variable {K} {post : α → σ → Prop} {s : σ}

theorem mono {post' : α → σ → Prop} {p : Program R α} (h : K.Obeys post p s)
    (hp : ∀ a s, post a s → post' a s) : K.Obeys post' p s := by
  induction p generalizing s with
  | done a => exact hp a s h
  | perform e next ih => exact ⟨h.1,fun r => ih r (h.2 r)⟩

theorem bind {p : Program R β} {f : β → Program R α} {mid : β → σ → Prop} (h : K.Obeys mid p s)
    (hf : ∀ b s, mid b s → K.Obeys post (f b) s) : K.Obeys post (p >>= f) s := by
  induction p generalizing s with
  | done b => exact hf b s h
  | perform e next ih => exact ⟨h.1,fun r => ih r (h.2 r)⟩

theorem map {p : Program R β} {f : β → α} (h : K.Obeys (fun b => post (f b)) p s) :
    K.Obeys post (f <$> p) s := by
  rw [map_eq_pure_bind]
  exact h.bind (fun _ _ hb => hb)

theorem request {e : E} {post : R e → σ → Prop} (h : K.allows s e)
    (hp : ∀ r, post r (K.next s e r)) : K.Obeys post (Program.request e) s :=
  ⟨h,hp⟩

theorem bindExcept {ε : Type} {x : ExceptT ε (Program R) β} {f : β → ExceptT ε (Program R) α}
    {mid : Except ε β → σ → Prop} {post : Except ε α → σ → Prop} (h : K.Obeys mid x.run s)
    (hok : ∀ b s, mid (.ok b) s → K.Obeys post (f b).run s)
    (herr : ∀ e s, mid (.error e) s → post (.error e) s) : K.Obeys post (x >>= f).run s := by
  rw [ExceptT.run_bind]
  refine h.bind (fun r s hr => ?_)
  cases r with
  | ok b => exact hok b s hr
  | error e => exact herr e s hr

theorem adapt {ε ε' : Type} {x : ExceptT ε (Program R) α} (wrap : ε → ε')
    {post : Except ε' α → σ → Prop} (h : K.Obeys (fun r => post (r.mapError wrap)) x.run s) :
    K.Obeys post (ExceptT.adapt wrap x).run s :=
  map h

theorem only {P : E → Prop} {p : Program R α} (hp : p.Only P)
    (hs : ∀ e, P e → K.allows s e ∧ ∀ r, K.next s e r = s) : K.Obeys (fun _ t => t = s) p s := by
  induction p with
  | done a => exact rfl
  | perform e next ih =>
      obtain ⟨he,hn⟩ := hs e hp.1
      exact ⟨he,fun r => (hn r).symm ▸ ih r (hp.2 r)⟩

end Obeys

theorem run {post : α → σ → Prop} (start : ℕ → σ) {env : W → Event R → W → Prop}
    {c c' : Config W R α} {tr : Trace R} (h : Run env c tr c')
    (hc : ∀ i, K.Obeys post (c.calls i) (start i)) (i : ℕ) :
    K.Obeys post (c'.calls i) (K.after (start i) (Trace.of i tr)) := by
  induction h with
  | nil => exact hc i
  | @snoc tr ev m c' _ hs ih =>
      by_cases hi : ev.call = i
      · subst hi
        obtain ⟨next,hp,hn⟩ := hs.caller
        rw [hp] at ih
        rw [Trace.of_snoc_self,after_snoc,hn]
        exact ih.2 ev.reply
      · rw [Trace.of_snoc_other tr hi,hs.others hi]
        exact ih

end Protocol

end Foundation
