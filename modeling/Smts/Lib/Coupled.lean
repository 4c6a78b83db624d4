import Smts.Lib.Leaves

namespace Smts.Lib

open Prog

/-- Started in `s` and in `t` the two programs end alike: both return, with results
and states that satisfy `Q`, or both raise the same exception, in states that
satisfy `E`. -/
def Coupled {σ τ ε α β : Type} (m : Prog σ ε α) (m' : Prog τ ε β) (Q : α → β → σ → τ → Prop)
    (E : σ → τ → Prop) (s : σ) (t : τ) : Prop :=
  wp m (fun a u => wp m' (fun b v => Q a b u v) (fun _ _ => False) t)
    (fun e u => wp m' (fun _ _ => False) (fun e' v => e' = e ∧ E u v) t) s

namespace Coupled

variable {σ τ ε α β γ δ : Type} {s : σ} {t : τ} {E E' : σ → τ → Prop}
  {m : Prog σ ε α} {m' : Prog τ ε β} {Q Q' : α → β → σ → τ → Prop} {R : γ → δ → σ → τ → Prop}

theorem pure {a : α} {b : β} (h : Q a b s t) :
    Coupled (Pure.pure a : Prog σ ε α) (Pure.pure b : Prog τ ε β) Q E s t := h

theorem raise {e : ε} (h : E s t) :
    Coupled (Prog.raise e : Prog σ ε α) (Prog.raise e : Prog τ ε β) Q E s t := ⟨rfl, h⟩

theorem modify {f : σ → σ} {f' : τ → τ} {Q : Unit → Unit → σ → τ → Prop}
    (h : Q () () (f s) (f' t)) :
    Coupled (Prog.modify f : Prog σ ε Unit) (Prog.modify f' : Prog τ ε Unit) Q E s t := h

theorem get {f : σ → Prog σ ε γ} {f' : τ → Prog τ ε δ} (h : Coupled (f s) (f' t) R E s t) :
    Coupled (Prog.get >>= f) (Prog.get >>= f') R E s t := h

theorem gets {g : σ → α} {g' : τ → β} {f : α → Prog σ ε γ} {f' : β → Prog τ ε δ}
    (h : Coupled (f (g s)) (f' (g' t)) R E s t) :
    Coupled (Prog.gets g >>= f) (Prog.gets g' >>= f') R E s t := h

/-- The two ways of ending alike. -/
theorem cases (h : Coupled m m' Q E s t) :
    (∃ a u b v, m s = (.ok a, u) ∧ m' t = (.ok b, v) ∧ Q a b u v) ∨
      ∃ e u v, m s = (.error e, u) ∧ m' t = (.error e, v) ∧ E u v := by
  rcases hm : m s with ⟨e | a, u⟩
  · rcases hm' : m' t with ⟨e' | b, v⟩
    · simp only [Coupled, wp, hm, hm'] at h
      obtain ⟨rfl, hE⟩ := h
      exact .inr ⟨e', u, v, rfl, rfl, hE⟩
    · simp [Coupled, wp, hm, hm'] at h
  · rcases hm' : m' t with ⟨e' | b, v⟩
    · simp [Coupled, wp, hm, hm'] at h
    · simp only [Coupled, wp, hm, hm'] at h
      exact .inl ⟨a, u, b, v, rfl, rfl, h⟩

theorem of_ok {a : α} {u : σ} {b : β} {v : τ} (hm : m s = (.ok a, u)) (hm' : m' t = (.ok b, v))
    (h : Q a b u v) : Coupled m m' Q E s t := by
  simp only [Coupled, wp, hm, hm']
  exact h

theorem of_error {e : ε} {u : σ} {v : τ} (hm : m s = (.error e, u)) (hm' : m' t = (.error e, v))
    (h : E u v) : Coupled m m' Q E s t := by
  simp only [Coupled, wp, hm, hm', true_and]
  exact h

theorem mono (h : Coupled m m' Q E s t) (hQ : ∀ a b u v, Q a b u v → Q' a b u v)
    (hE : ∀ u v, E u v → E' u v) : Coupled m m' Q' E' s t := by
  rcases h.cases with ⟨a, u, b, v, hm, hm', hq⟩ | ⟨e, u, v, hm, hm', he⟩
  · exact of_ok hm hm' (hQ a b u v hq)
  · exact of_error hm hm' (hE u v he)

/-- A program that returns does not raise. -/
theorem returned {a : α} {u : σ} (h : Coupled m m' Q E s t) (hm : m s = (.ok a, u)) :
    Coupled m m' Q E' s t := by
  rcases h.cases with ⟨a, u, b, v, hm, hm', hq⟩ | ⟨e, u, v, hm', _⟩
  · exact of_ok hm hm' hq
  · rw [hm] at hm'
    cases hm'

theorem post (h : Coupled m m' Q E s t) (hQ : ∀ a b u v, Q a b u v → Q' a b u v) :
    Coupled m m' Q' E s t :=
  h.mono hQ fun _ _ he => he

theorem bind {f : α → Prog σ ε γ} {f' : β → Prog τ ε δ} (h : Coupled m m' Q E s t)
    (hf : ∀ a b u v, Q a b u v → Coupled (f a) (f' b) R E u v) :
    Coupled (m >>= f) (m' >>= f') R E s t := by
  rcases h.cases with ⟨a, u, b, v, hm, hm', hq⟩ | ⟨e, u, v, hm, hm', he⟩
  · rcases (hf a b u v hq).cases with ⟨c, x, d, y, hc, hd, hr⟩ | ⟨e, x, y, hc, hd, he⟩
    · exact of_ok ((bind_ok hm).trans hc) ((bind_ok hm').trans hd) hr
    · exact of_error ((bind_ok hm).trans hc) ((bind_ok hm').trans hd) he
  · exact of_error (bind_error hm) (bind_error hm') he

/-- What one program does twice it does in the same way. -/
theorem same {Q : α → α → σ → σ → Prop} {E : σ → σ → Prop} (h : Coupled m m Q E s s) :
    wp m (fun a u => Q a a u u) (fun _ u => E u u) s := by
  rcases h.cases with ⟨a, u, b, v, hm, hm', hq⟩ | ⟨e, u, v, hm, hm', he⟩
  · rw [hm] at hm'
    cases hm'
    simpa only [wp, hm] using hq
  · rw [hm] at hm'
    cases hm'
    simpa only [wp, hm] using he

/-- The first program has come to its result by running. -/
theorem known (h : Coupled m m' Q E s t) :
    Coupled m m' (fun a b u v => Q a b u v ∧ m s = (.ok a, u)) E s t := by
  rcases h.cases with ⟨a, u, b, v, hm, hm', hq⟩ | ⟨e, u, v, hm, hm', he⟩
  · exact of_ok hm hm' ⟨hq, hm⟩
  · exact of_error hm hm' he

/-- The first program also leaves a part of its state alone. -/
theorem leaves {ζ : Type} {f : σ → ζ} (h : Coupled m m' Q E s t) (hl : Leaves f m) :
    Coupled m m' (fun a b u v => Q a b u v ∧ f u = f s) E s t :=
  h.known.post fun a b u v ⟨hq, hm⟩ => ⟨hq, by rw [← hl s, hm]⟩

theorem ofExcept {r : Except ε α} {r' : Except ε β} {f : α → β} (hr : r' = r.map f)
    (h : ∀ a, r = .ok a → Q a (f a) s t) (hE : E s t) :
    Coupled (Prog.ofExcept r) (Prog.ofExcept r') Q E s t := by
  subst hr
  cases r with
  | ok a => exact h a rfl
  | error e => exact ⟨rfl, hE⟩

theorem bind_ofExcept {r : Except ε α} {r' : Except ε β} {f : α → β} {g : α → Prog σ ε γ}
    {g' : β → Prog τ ε δ} (hr : r' = r.map f) (hE : E s t)
    (h : ∀ a, r = .ok a → Coupled (g a) (g' (f a)) R E s t) :
    Coupled (Prog.ofExcept r >>= g) (Prog.ofExcept r' >>= g') R E s t := by
  subst hr
  cases r with
  | ok a => exact h a rfl
  | error e => exact ⟨rfl, hE⟩

theorem ite {c c' : Prop} [Decidable c] [Decidable c'] {k : Prog σ ε α} {k' : Prog τ ε β}
    (hc : c' ↔ c) (h : c → Coupled m m' Q E s t) (h' : ¬ c → Coupled k k' Q E s t) :
    Coupled (if c then m else k) (if c' then m' else k') Q E s t := by
  by_cases h₀ : c
  · rw [if_pos h₀, if_pos (hc.mpr h₀)]
    exact h h₀
  · rw [if_neg h₀, if_neg fun h => h₀ (hc.mp h)]
    exact h' h₀

theorem when {c c' : Prop} [Decidable c] [Decidable c'] {m : Prog σ ε Unit} {m' : Prog τ ε Unit}
    {Q : Unit → Unit → σ → τ → Prop} (hc : c' ↔ c) (h : c → Coupled m m' Q E s t)
    (h' : ¬ c → Q () () s t) : Coupled (Prog.when c m) (Prog.when c' m') Q E s t :=
  ite hc h fun hn => pure (h' hn)

theorem attempt {handler : ε → Prog σ ε α} {handler' : ε → Prog τ ε β}
    (h : Coupled m m' Q E' s t)
    (hh : ∀ e u v, E' u v → Coupled (handler e) (handler' e) Q E u v) :
    Coupled (Prog.attempt m handler) (Prog.attempt m' handler') Q E s t := by
  rcases h.cases with ⟨a, u, b, v, hm, hm', hq⟩ | ⟨e, u, v, hm, hm', he⟩
  · exact of_ok (by rw [Prog.attempt, hm]) (by rw [Prog.attempt, hm']) hq
  · have hrun : Prog.attempt m handler s = handler e u := by rw [Prog.attempt, hm]
    have hrun' : Prog.attempt m' handler' t = handler' e v := by rw [Prog.attempt, hm']
    rcases (hh e u v he).cases with ⟨a, x, b, y, ha, hb, hq⟩ | ⟨e, x, y, ha, hb, he⟩
    · exact of_ok (hrun.trans ha) (hrun'.trans hb) hq
    · exact of_error (hrun.trans ha) (hrun'.trans hb) he

theorem forEach {f : α → Prog σ ε Unit} {f' : β → Prog τ ε Unit} {r : α → β}
    {I : List α → σ → τ → Prop}
    (step : ∀ a as u v, I (a :: as) u v → Coupled (f a) (f' (r a)) (fun _ _ => I as) E u v)
    {as : List α} (h : I as s t) :
    Coupled (Prog.forEach f as) (Prog.forEach f' (as.map r)) (fun _ _ => I []) E s t := by
  induction as generalizing s t with
  | nil => exact pure h
  | cons a as ih => exact bind (step a as s t h) fun _ _ u v hI => ih hI

theorem foldEach {f : γ → α → Prog σ ε γ} {f' : δ → β → Prog τ ε δ} {r : α → β}
    {I : γ → δ → List α → σ → τ → Prop}
    (step : ∀ c d a as u v, I c d (a :: as) u v →
      Coupled (f c a) (f' d (r a)) (fun c d => I c d as) E u v)
    {c : γ} {d : δ} {as : List α} (h : I c d as s t) :
    Coupled (Prog.foldEach f c as) (Prog.foldEach f' d (as.map r)) (fun c d => I c d []) E s t := by
  induction as generalizing c d s t with
  | nil => exact pure h
  | cons a as ih => exact bind (step c d a as s t h) fun _ _ u v hI => ih hI

theorem whileNonempty {out : ε} {round : List α → Prog σ ε (List α)}
    {round' : List β → Prog τ ε (List β)} {r : α → β} {I : List α → σ → τ → Prop}
    (step : ∀ l u v, I l u v →
      Coupled (round l) (round' (l.map r)) (fun k k' u v => k' = k.map r ∧ I k u v) E u v)
    (stop : ∀ l u v, I l u v → E u v) {n : Nat} {l : List α} (h : I l s t) :
    Coupled (Prog.whileNonempty out round n l) (Prog.whileNonempty out round' n (l.map r))
      (fun _ _ => I []) E s t := by
  induction n generalizing l s t with
  | zero =>
    cases l with
    | nil => exact pure h
    | cons a as => exact raise (stop _ s t h)
  | succ n ih =>
    cases l with
    | nil => exact pure h
    | cons a as =>
      refine bind (step _ s t h) fun k k' u v hk => ?_
      obtain ⟨rfl, hI⟩ := hk
      exact ih hI

end Coupled

end Smts.Lib
