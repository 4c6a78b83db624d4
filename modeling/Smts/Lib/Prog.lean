import Mathlib.Data.List.Basic

namespace Smts.Lib

/-- A program over a mutable state.  An exception leaves the state as it was
when the exception was raised: nothing is rolled back. -/
def Prog (σ ε α : Type) := σ → Except ε α × σ

namespace Prog

variable {σ ε α β : Type}

instance : Monad (Prog σ ε) where
  pure a := fun s => (.ok a, s)
  bind m f := fun s =>
    match m s with
    | (.ok a, s') => f a s'
    | (.error e, s') => (.error e, s')

def get : Prog σ ε σ := fun s => (.ok s, s)

def gets (f : σ → α) : Prog σ ε α := fun s => (.ok (f s), s)

def modify (f : σ → σ) : Prog σ ε Unit := fun s => (.ok (), f s)

def raise (e : ε) : Prog σ ε α := fun s => (.error e, s)

def ofExcept (r : Except ε α) : Prog σ ε α := fun s => (r, s)

def attempt (m : Prog σ ε α) (handler : ε → Prog σ ε α) : Prog σ ε α := fun s =>
  match m s with
  | (.ok a, s') => (.ok a, s')
  | (.error e, s') => handler e s'

def when (c : Prop) [Decidable c] (m : Prog σ ε Unit) : Prog σ ε Unit :=
  if c then m else pure ()

def forEach (f : α → Prog σ ε Unit) : List α → Prog σ ε Unit
  | [] => pure ()
  | a :: as => do f a; forEach f as

def foldEach (f : β → α → Prog σ ε β) : β → List α → Prog σ ε β
  | b, [] => pure b
  | b, a :: as => do foldEach f (← f b a) as

/-- `while rest != []: rest = round(rest)`.  The fuel bounds the number of
rounds, and `out` is raised when it does not suffice. -/
def whileNonempty (out : ε) (round : List α → Prog σ ε (List α)) :
    Nat → List α → Prog σ ε Unit
  | _, [] => pure ()
  | 0, _ :: _ => raise out
  | n + 1, a :: as => do whileNonempty out round n (← round (a :: as))

/-- The weakest precondition: `Q` of the result when the program returns, `E` of
the exception when it raises. -/
def wp (m : Prog σ ε α) (Q : α → σ → Prop) (E : ε → σ → Prop) (s : σ) : Prop :=
  match m s with
  | (.ok a, s') => Q a s'
  | (.error e, s') => E e s'

section Rules

variable {Q : α → σ → Prop} {E : ε → σ → Prop} {s : σ}

@[simp] theorem pure_run (a : α) (s : σ) : (pure a : Prog σ ε α) s = (.ok a, s) := rfl

theorem bind_run (m : Prog σ ε α) (f : α → Prog σ ε β) (s : σ) :
    (m >>= f) s = match m s with
      | (.ok a, s') => f a s'
      | (.error e, s') => (.error e, s') := rfl

theorem bind_ok {m : Prog σ ε α} {f : α → Prog σ ε β} {s s' : σ} {a : α}
    (h : m s = (.ok a, s')) : (m >>= f) s = f a s' := by
  rw [bind_run, h]

theorem bind_error {m : Prog σ ε α} {f : α → Prog σ ε β} {s s' : σ} {e : ε}
    (h : m s = (.error e, s')) : (m >>= f) s = (.error e, s') := by
  rw [bind_run, h]

theorem bind_bind {γ : Type} (m : Prog σ ε α) (f : α → Prog σ ε β) (g : β → Prog σ ε γ) :
    (m >>= f) >>= g = m >>= fun a => f a >>= g := by
  funext s
  simp only [bind_run]
  rcases m s with ⟨_ | _, _⟩ <;> rfl

@[simp] theorem get_run (s : σ) : (get : Prog σ ε σ) s = (.ok s, s) := rfl

@[simp] theorem gets_run (f : σ → α) (s : σ) : (gets f : Prog σ ε α) s = (.ok (f s), s) := rfl

@[simp] theorem modify_run (f : σ → σ) (s : σ) :
    (modify f : Prog σ ε Unit) s = (.ok (), f s) := rfl

@[simp] theorem raise_run (e : ε) (s : σ) : (raise e : Prog σ ε α) s = (.error e, s) := rfl

@[simp] theorem wp_pure (a : α) : wp (pure a : Prog σ ε α) Q E s = Q a s := rfl

@[simp] theorem wp_bind (m : Prog σ ε β) (f : β → Prog σ ε α) :
    wp (m >>= f) Q E s = wp m (fun b s' => wp (f b) Q E s') E s := by
  simp only [wp, bind_run]
  rcases m s with ⟨_ | _, _⟩ <;> rfl

@[simp] theorem wp_get {Q : σ → σ → Prop} : wp (get : Prog σ ε σ) Q E s = Q s s := rfl

@[simp] theorem wp_gets (f : σ → α) : wp (gets f : Prog σ ε α) Q E s = Q (f s) s := rfl

@[simp] theorem wp_modify {Q : Unit → σ → Prop} (f : σ → σ) :
    wp (modify f : Prog σ ε Unit) Q E s = Q () (f s) := rfl

@[simp] theorem wp_raise (e : ε) : wp (raise e : Prog σ ε α) Q E s = E e s := rfl

@[simp] theorem wp_ofExcept_ok (a : α) :
    wp (ofExcept (.ok a) : Prog σ ε α) Q E s = Q a s := rfl

@[simp] theorem wp_ofExcept_error (e : ε) :
    wp (ofExcept (.error e) : Prog σ ε α) Q E s = E e s := rfl

theorem wp_attempt (m : Prog σ ε α) (handler : ε → Prog σ ε α) :
    wp (attempt m handler) Q E s = wp m Q (fun e s' => wp (handler e) Q E s') s := by
  simp only [wp, attempt]
  rcases m s with ⟨_ | _, _⟩ <;> rfl

theorem wp_when {Q : Unit → σ → Prop} (c : Prop) [Decidable c] (m : Prog σ ε Unit) :
    wp (when c m) Q E s ↔ (c → wp m Q E s) ∧ (¬ c → Q () s) := by
  by_cases h : c <;> simp [when, h]

theorem wp_mono {m : Prog σ ε α} {Q' : α → σ → Prop} {E' : ε → σ → Prop}
    (h : wp m Q E s) (hQ : ∀ a s', Q a s' → Q' a s') (hE : ∀ e s', E e s' → E' e s') :
    wp m Q' E' s := by
  simp only [wp] at h ⊢
  rcases hm : m s with ⟨e | a, s'⟩
  · rw [hm] at h; exact hE e s' h
  · rw [hm] at h; exact hQ a s' h

theorem wp_of_run {m : Prog σ ε α} (hok : ∀ a s', m s = (.ok a, s') → Q a s')
    (herr : ∀ e s', m s = (.error e, s') → E e s') : wp m Q E s := by
  simp only [wp]
  rcases hm : m s with ⟨e | a, s'⟩
  · exact herr e s' hm
  · exact hok a s' hm

theorem wp_ok {m : Prog σ ε α} {a : α} {s' : σ} (h : wp m Q E s) (hm : m s = (.ok a, s')) :
    Q a s' := by
  simpa [wp, hm] using h

theorem wp_error {m : Prog σ ε α} {e : ε} {s' : σ} (h : wp m Q E s)
    (hm : m s = (.error e, s')) : E e s' := by
  simpa [wp, hm] using h

theorem wp_true {m : Prog σ ε α} : wp m (fun _ _ => True) (fun _ _ => True) s :=
  wp_of_run (fun _ _ _ => trivial) fun _ _ _ => trivial

/-- What holds however a program ends holds of the state it leaves. -/
theorem wp_final {m : Prog σ ε α} {P : σ → Prop} (h : wp m (fun _ s' => P s') (fun _ s' => P s') s) :
    P (m s).2 := by
  rcases hm : m s with ⟨e | a, s'⟩
  · exact wp_error h hm
  · exact wp_ok h hm

theorem wp_and {m : Prog σ ε α} {Q' : α → σ → Prop} {E' : ε → σ → Prop}
    (h : wp m Q E s) (h' : wp m Q' E' s) :
    wp m (fun a s' => Q a s' ∧ Q' a s') (fun e s' => E e s' ∧ E' e s') s :=
  wp_of_run (fun _ _ hm => ⟨wp_ok h hm, wp_ok h' hm⟩) fun _ _ hm => ⟨wp_error h hm, wp_error h' hm⟩

end Rules

section Loops

variable {E : ε → σ → Prop}

theorem wp_forEach {f : α → Prog σ ε Unit} {I : List α → σ → Prop}
    (step : ∀ a as s, I (a :: as) s → wp (f a) (fun _ s' => I as s') E s)
    {as : List α} {s : σ} (h : I as s) : wp (forEach f as) (fun _ s' => I [] s') E s := by
  induction as generalizing s with
  | nil => exact h
  | cons a as ih =>
    rw [forEach, wp_bind]
    exact wp_mono (step a as s h) (fun _ _ h' => ih h') fun _ _ h' => h'

theorem wp_foldEach {f : β → α → Prog σ ε β} {I : β → List α → σ → Prop}
    (step : ∀ b a as s, I b (a :: as) s → wp (f b a) (fun b' s' => I b' as s') E s)
    {b : β} {as : List α} {s : σ} (h : I b as s) :
    wp (foldEach f b as) (fun b' s' => I b' [] s') E s := by
  induction as generalizing b s with
  | nil => exact h
  | cons a as ih =>
    rw [foldEach, wp_bind]
    exact wp_mono (step b a as s h) (fun _ _ h' => ih h') fun _ _ h' => h'

theorem wp_whileNonempty {out : ε} {round : List α → Prog σ ε (List α)}
    {I : List α → σ → Prop}
    (step : ∀ l s, l ≠ [] → I l s → wp (round l) I E s)
    (stop : ∀ l s, I l s → E out s) {n : Nat} {l : List α} {s : σ} (h : I l s) :
    wp (whileNonempty out round n l) (fun _ s' => I [] s') E s := by
  induction n generalizing l s with
  | zero =>
    cases l with
    | nil => exact h
    | cons a as => exact stop _ _ h
  | succ n ih =>
    cases l with
    | nil => exact h
    | cons a as =>
      rw [whileNonempty, wp_bind]
      exact wp_mono (step _ _ (List.cons_ne_nil a as) h) (fun _ _ h' => ih h') fun _ _ h' => h'

/-- A round that changes nothing is repeated for ever. -/
theorem whileNonempty_stuck {out : ε} {round : List α → Prog σ ε (List α)} {l : List α} {s : σ}
    (hl : l ≠ []) (hr : round l s = (.ok l, s)) (n : Nat) :
    whileNonempty out round n l s = (.error out, s) := by
  obtain ⟨a, as, rfl⟩ := List.exists_cons_of_ne_nil hl
  induction n with
  | zero => rfl
  | succ n ih => rw [whileNonempty, bind_ok hr, ih]

end Loops

end Prog

end Smts.Lib
