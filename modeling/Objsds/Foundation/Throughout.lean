import Objsds.Foundation.Pool

namespace Foundation

variable {E : Type} {R : E → Type} {α β W : Type}

-- A call that takes its steps alone: whatever it has come to, `I` holds of the answers it was given
-- and of the world, and when it returns, `Q` does.
def Throughout (env : W → Event R → W → Prop) (i : ℕ) (I : List (Sigma R) → W → Prop)
    (Q : α → List (Sigma R) → W → Prop) : Program R α → List (Sigma R) → W → Prop
  | .done a, h, w => I h w ∧ Q a h w
  | .perform e next, h, w => I h w ∧
      ∀ r w', env w ⟨i,e,r⟩ w' → Throughout env i I Q (next r) (h ++ [⟨e,r⟩]) w'

namespace Throughout

variable {env : W → Event R → W → Prop} {i : ℕ} {I : List (Sigma R) → W → Prop}
  {Q : α → List (Sigma R) → W → Prop} {h : List (Sigma R)} {w : W}

theorem here {p : Program R α} (hp : Throughout env i I Q p h w) : I h w := by
  cases p <;> exact hp.1

theorem post {p : Program R α} {Q' : α → List (Sigma R) → W → Prop}
    (hp : Throughout env i I Q p h w) (hq : ∀ a h w, I h w → Q a h w → Q' a h w) :
    Throughout env i I Q' p h w := by
  induction p generalizing h w with
  | done a => exact ⟨hp.1,hq a h w hp.1 hp.2⟩
  | perform e next ih => exact ⟨hp.1,fun r w' he => ih r (hp.2 r w' he)⟩

theorem bind {p : Program R β} {f : β → Program R α} {M : β → List (Sigma R) → W → Prop}
    (hp : Throughout env i I M p h w)
    (hf : ∀ b h w, I h w → M b h w → Throughout env i I Q (f b) h w) :
    Throughout env i I Q (p >>= f) h w := by
  induction p generalizing h w with
  | done b => exact hf b h w hp.1 hp.2
  | perform e next ih => exact ⟨hp.1,fun r w' he => ih r (hp.2 r w' he)⟩

theorem map {p : Program R β} {f : β → α} (hp : Throughout env i I (fun b => Q (f b)) p h w) :
    Throughout env i I Q (f <$> p) h w := by
  rw [map_eq_pure_bind]
  exact hp.bind (fun _ _ _ hi hq => ⟨hi,hq⟩)

theorem bindExcept {ε : Type} {x : ExceptT ε (Program R) β} {f : β → ExceptT ε (Program R) α}
    {M : Except ε β → List (Sigma R) → W → Prop} {Q : Except ε α → List (Sigma R) → W → Prop}
    (hx : Throughout env i I M x.run h w)
    (hok : ∀ b h w, I h w → M (.ok b) h w → Throughout env i I Q (f b).run h w)
    (herr : ∀ e h w, I h w → M (.error e) h w → Q (.error e) h w) :
    Throughout env i I Q (x >>= f).run h w := by
  rw [ExceptT.run_bind]
  refine hx.bind (fun r h w hi hm => ?_)
  cases r with
  | ok b => exact hok b h w hi hm
  | error e => exact ⟨hi,herr e h w hi hm⟩

theorem adapt {ε ε' : Type} {x : ExceptT ε (Program R) α} (wrap : ε → ε')
    {Q : Except ε' α → List (Sigma R) → W → Prop}
    (hx : Throughout env i I (fun r => Q (r.mapError wrap)) x.run h w) :
    Throughout env i I Q (ExceptT.adapt wrap x).run h w :=
  map hx

theorem only {P : E → Prop} {J : List (Sigma R) → W → Prop} {p : Program R α} (hp : p.Only P)
    (hi : ∀ h w, J h w → I h w)
    (hs : ∀ h w e r w', P e → J h w → env w ⟨i,e,r⟩ w' → J (h ++ [⟨e,r⟩]) w') (hj : J h w) :
    Throughout env i I (fun _ => J) p h w := by
  induction p generalizing h w with
  | done a => exact ⟨hi h w hj,hj⟩
  | perform e next ih =>
      exact ⟨hi h w hj,fun r w' he => ih r (hp.2 r) (hs h w e r w' hp.1 hj he)⟩

theorem run {p : Program R α} {c c' : Config W R α} {tr : Trace R} (hr : Run env c tr c')
    (hown : ∀ ev ∈ tr, ev.call = i) (hc : c.calls i = p)
    (hp : Throughout env i I Q p [] c.world) :
    I (tr.map Event.answer) c'.world ∧
      ∀ a, c'.calls i = .done a → Q a (tr.map Event.answer) c'.world := by
  have hstay : Throughout env i I Q (c'.calls i) (tr.map Event.answer) c'.world := by
    induction hr with
    | nil => rwa [hc]
    | @snoc tr ev m c' _ hs ih =>
        have hev : ev.call = i := hown ev (by simp)
        subst hev
        have hm := ih (fun e he => hown e (by simp [he]))
        obtain ⟨next,hnext,hnext'⟩ := hs.caller
        rw [hnext] at hm
        rw [hnext',List.map_append]
        exact hm.2 ev.reply _ hs.world
  refine ⟨hstay.here,fun a ha => ?_⟩
  rw [ha] at hstay
  exact hstay.2

end Throughout

theorem Run.untouched {env : W → Event R → W → Prop} {c c' : Config W R α} {tr : Trace R} {i : ℕ}
    (h : Run env c tr c') (hi : ∀ ev ∈ tr, ev.call ≠ i) : c'.calls i = c.calls i := by
  induction h with
  | nil => rfl
  | @snoc tr ev m c' _ hs ih =>
      rw [hs.others (hi ev (by simp)),ih (fun e he => hi e (by simp [he]))]

end Foundation
