import Smts.Client.Sharing

namespace Smts

open Smts.Lib
open Smts.Client (Branch Sharer Act InsertHarmless)
open Smts.LemmaServer (Task Reply Apart ands lemmaWorker forget)

/-- Clients that share lemmas, and the lemma server: the tasks that it has run (latest first), the
tasks and the replies that are on their way, and the connections that have not broken. -/
structure Exchange where
  server : LemmaServer.State
  history : List Task := []
  client : Nat → Sharer
  outbox : Nat → List Task := fun _ => []
  inbox : Nat → List Reply := fun _ => []
  linked : Nat → Bool := fun _ => true

/-- The branch of an AND node below first OR nodes only. -/
def Plain (b : Branch) : Prop := b = (ands b).flatMap fun a => [0, a]

theorem Plain.take {b : Branch} (h : Plain b) (k : Nat) :
    b.take (2 * k) = ((ands b).take k).flatMap fun a => [0, a] := by
  have key (l : List Nat) (k : Nat) :
      (l.flatMap fun a => [0, a]).take (2 * k) = (l.take k).flatMap fun a => [0, a] := by
    induction l generalizing k with
    | nil => simp
    | cons a l ih =>
      cases k with
      | zero => rfl
      | succ k =>
        have : 2 * (k + 1) = 2 * k + 1 + 1 := by omega
        simp [this, ih]
  exact (congrArg (List.take (2 * k)) h).trans (key (ands b) k)

/-- Where all branches are plain, the AND indices say it all. -/
theorem apart_of_plain {ts : List Task} {t : Task} (hts : ∀ u ∈ t :: ts, Plain u.path) :
    Apart ts t := by
  intro _ _ x hx k _ htake
  obtain ⟨u, hu, -, -, hpath, -⟩ := LemmaServer.mem_pushed hx
  rw [(hpath ▸ hts u hu : Plain x.1).take, (hts t List.mem_cons_self).take, htake]

namespace Exchange

def init (sendAgain : Bool) (clients : Nat → Sharer) : Exchange where
  server := { sendAgain }
  client := clients

def put (x : Exchange) (i : Nat) (s : Sharer) : Exchange :=
  { x with client := Function.update x.client i s }

/-- A client writes to the lemma server. -/
def post (x : Exchange) (i : Nat) (ts : List Task) : Exchange :=
  if x.linked i then { x with outbox := Function.update x.outbox i (x.outbox i ++ ts) } else x

/-- The pool thread of the lemma server runs the next task of a client. -/
def work (x : Exchange) (env : LemmaServer.Env) (i : Nat) (t : Task) (rest : List Task) :
    Exchange :=
  let s := (lemmaWorker env t.client t.event x.server).2
  { x with
    server := s
    history := t :: x.history
    outbox := Function.update x.outbox i rest
    inbox := fun j => x.inbox j ++ (s.sent.drop x.server.sent.length).filter fun r => r.client = j }

variable {Model : Type}

/-- What a client or the lemma server does next.  `G` restricts the tasks that are run, `N` the
nodes that clients are moved to. -/
inductive Step (G : List Task → Task → Prop) (N : Branch → Prop)
    (frame : Bytes → Branch → Set Model) (sem : Bytes → Set Model) (x : Exchange) :
    Exchange → Prop
  | learn {i : Nat} {ls : List LemmaServer.NetLemma}
      {learned : Table Branch (List LemmaServer.NetLemma)} (searching : (x.client i).loading = none)
      (right : ∀ l ∈ ls, (x.client i).Learns (frame (x.client i).name) sem l)
      (stores : (x.client i).Stores ls learned) :
      Step G N frame sem x (x.put i { x.client i with learned })
  | swap {i : Nat} {taken left : Table Branch (List LemmaServer.NetLemma)}
      (done : (x.client i).publishing = []) (swaps : (x.client i).Swaps taken left) :
      Step G N frame sem x (x.put i { x.client i with publishing := taken, learned := left })
  | push {i : Nat} {b : Branch} {ls : List LemmaServer.NetLemma}
      {rest : Table Branch (List LemmaServer.NetLemma)}
      (next : (x.client i).publishing = (b, ls) :: rest) (free : (x.client i).asking = false) :
      Step G N frame sem x
        ((x.put i { x.client i with publishing := rest }).post i ((x.client i).pushed i b ls))
  | plain {i : Nat} {a : Act} {s : Sharer} (known : ∀ b, a = .receive (.incremental b) → N b)
      (plain : (x.client i).plain a = some s) : Step G N frame sem x (x.put i s)
  | load {i : Nat} {s : Sharer} (load : (x.client i).load = some s) :
      Step G N frame sem x (x.put i s)
  | execute {i : Nat} {s : Sharer} (execute : (x.client i).execute = some s) :
      Step G N frame sem x (x.put i s)
  | ask {i : Nat} {p : Branch} {amount : Nat} {query : Bytes}
      (header : (x.client i).header = some p) (free : (x.client i).asking = false)
      (fresh : (x.client i).answer = none) (linked : x.linked i = true) :
      Step G N frame sem x ((x.put i { x.client i with asking := true }).post i
        [(x.client i).request i p amount query])
  | read {i : Nat} {r : Reply} {rest : List Reply} (asking : (x.client i).asking = true)
      (linked : x.linked i = true) (next : x.inbox i = r :: rest) :
      Step G N frame sem x
        { x.put i ((x.client i).read r) with inbox := Function.update x.inbox i rest }
  | fail {i : Nat} (fresh : (x.client i).answer = none) (broken : x.linked i = false) :
      Step G N frame sem x (x.put i (x.client i).giveUp)
  | insert {i : Nat} {s : Sharer}
      (harmless : InsertHarmless (x.client i).toSchedular .insert)
      (insert : (x.client i).insert = some s) : Step G N frame sem x (x.put i s)
  | work {i : Nat} {env : LemmaServer.Env} {t : Task} {rest : List Task}
      (next : x.outbox i = t :: rest) (allowed : G x.history t) :
      Step G N frame sem x (x.work env i t rest)
  | cut {i : Nat} : Step G N frame sem x { x with linked := Function.update x.linked i false }
  | close {i : Nat} (broken : x.linked i = false) :
      Step G N frame sem x { x with server := forget i x.server }

/-- All that may have happened. -/
def Reaches (G : List Task → Task → Prop) (N : Branch → Prop)
    (frame : Bytes → Branch → Set Model) (sem : Bytes → Set Model) : Exchange → Exchange → Prop :=
  Relation.ReflTransGen (Step G N frame sem)

/-- What may be done next. -/
inductive Move
  | learn (i : Nat) (ls : List LemmaServer.NetLemma)
  | swap (i : Nat)
  | push (i : Nat)
  | plain (i : Nat) (a : Act)
  | load (i : Nat)
  | execute (i : Nat)
  | ask (i : Nat) (amount : Nat) (query : Bytes)
  | read (i : Nat)
  | fail (i : Nat)
  | insert (i : Nat)
  | work (i : Nat)
  | cut (i : Nat)
  | close (i : Nat)

/-- Does it, where it is possible. -/
def move (env : LemmaServer.Env) (x : Exchange) : Move → Option Exchange
  | .learn i ls =>
    if (x.client i).loading = none then
      some (x.put i { x.client i with learned := (x.client i).learn ls })
    else none
  | .swap i =>
    if (x.client i).publishing = [] then
      some (x.put i { x.client i with publishing := (x.client i).learned, learned := [] })
    else none
  | .push i =>
    match (x.client i).publishing, (x.client i).asking with
    | (b, ls) :: rest, false => some
        ((x.put i { x.client i with publishing := rest }).post i ((x.client i).pushed i b ls))
    | _, _ => none
  | .plain i a => ((x.client i).plain a).map (x.put i)
  | .load i => (x.client i).load.map (x.put i)
  | .execute i => (x.client i).execute.map (x.put i)
  | .ask i amount query =>
    match (x.client i).header, (x.client i).asking, (x.client i).answer, x.linked i with
    | some p, false, none, true => some
        ((x.put i { x.client i with asking := true }).post i
          [(x.client i).request i p amount query])
    | _, _, _, _ => none
  | .read i =>
    match (x.client i).asking, x.linked i, x.inbox i with
    | true, true, r :: rest => some
        { x.put i ((x.client i).read r) with inbox := Function.update x.inbox i rest }
    | _, _, _ => none
  | .fail i =>
    if (x.client i).answer = none ∧ x.linked i = false then some (x.put i (x.client i).giveUp)
    else none
  | .insert i =>
    if InsertHarmless (x.client i).toSchedular .insert then (x.client i).insert.map (x.put i)
    else none
  | .work i =>
    match x.outbox i with
    | t :: rest => some (x.work env i t rest)
    | [] => none
  | .cut i => some { x with linked := Function.update x.linked i false }
  | .close i =>
    if x.linked i = false then some { x with server := forget i x.server } else none

section Moves

variable {N : Branch → Prop} {frame : Bytes → Branch → Set Model} {sem : Bytes → Set Model}
  {env : LemmaServer.Env} {x y : Exchange} {m : Move}

theorem move_step (right : ∀ i ls, m = .learn i ls → ∀ (s : Sharer), ∀ l ∈ ls,
      s.Learns (frame s.name) sem l)
    (known : ∀ i b, m = .plain i (.receive (.incremental b)) → N b)
    (h : x.move env m = some y) : Step (fun _ _ => True) N frame sem x y := by
  cases m with
  | learn i ls =>
    obtain ⟨searching, rfl⟩ := Option.ite_some_none_eq_some.mp h
    exact .learn searching (right i ls rfl _) (Sharer.stores_learn _ _)
  | swap i =>
    obtain ⟨done, rfl⟩ := Option.ite_some_none_eq_some.mp h
    exact .swap done ⟨List.Subset.refl _, List.nil_subset _⟩
  | push i =>
    rw [move] at h
    split at h
    · next next free =>
      cases h
      exact .push next free
    · cases h
  | plain i a =>
    obtain ⟨s, hs, rfl⟩ := Option.map_eq_some_iff.mp h
    exact .plain (fun b hb => known i b (hb ▸ rfl)) hs
  | load i =>
    obtain ⟨s, hs, rfl⟩ := Option.map_eq_some_iff.mp h
    exact .load hs
  | execute i =>
    obtain ⟨s, hs, rfl⟩ := Option.map_eq_some_iff.mp h
    exact .execute hs
  | ask i amount query =>
    rw [move] at h
    split at h
    · next header free fresh linked =>
      cases h
      exact .ask header free fresh linked
    · cases h
  | read i =>
    rw [move] at h
    split at h
    · next asking linked next =>
      cases h
      exact .read asking linked next
    · cases h
  | fail i =>
    obtain ⟨⟨fresh, broken⟩, rfl⟩ := Option.ite_some_none_eq_some.mp h
    exact .fail fresh broken
  | insert i =>
    rw [move, Option.ite_none_right_eq_some] at h
    obtain ⟨harmless, h⟩ := h
    obtain ⟨s, hs, rfl⟩ := Option.map_eq_some_iff.mp h
    exact .insert harmless hs
  | work i =>
    rw [move] at h
    split at h
    · next next =>
      cases h
      exact .work next trivial
    · cases h
  | cut i =>
    cases h
    exact .cut
  | close i =>
    obtain ⟨broken, rfl⟩ := Option.ite_some_none_eq_some.mp h
    exact .close broken

theorem Reaches.of_script {script : List Move}
    (right : ∀ i ls, .learn i ls ∈ script → ∀ (s : Sharer), ∀ l ∈ ls,
      s.Learns (frame s.name) sem l)
    (known : ∀ i b, .plain i (.receive (.incremental b)) ∈ script → N b)
    (h : script.foldlM (move env) x = some y) : Reaches (fun _ _ => True) N frame sem x y := by
  induction script generalizing x with
  | nil =>
    cases h
    exact .refl
  | cons m ms ih =>
    obtain ⟨z, hz, hy⟩ := Option.bind_eq_some_iff.mp h
    have here := move_step (fun i ls hm => right i ls (hm ▸ List.mem_cons_self))
      (fun i b hm => known i b (hm ▸ List.mem_cons_self)) hz
    exact .head here (ih (fun i ls hm => right i ls (List.mem_cons_of_mem _ hm))
      (fun i b hm => known i b (List.mem_cons_of_mem _ hm)) hy)

end Moves

section Within

variable {Model : Type} {G : List Task → Task → Prop} {N : Branch → Prop}
  {frame : Bytes → Branch → Set Model} {sem : Bytes → Set Model} {x y : Exchange} {i : Nat}
  {s : Sharer}

/-- All branches that are dealt with satisfy `N`. -/
structure Within (N : Branch → Prop) (x : Exchange) : Prop where
  clients : ∀ i, (x.client i).Within N
  history : ∀ t ∈ x.history, N t.path
  sent : ∀ i, ∀ t ∈ x.outbox i, N t.path

namespace Within

theorem put (hx : x.Within N) (hs : s.Within N) : (x.put i s).Within N where
  clients := (Function.forall_update_iff _ fun _ (s : Sharer) => s.Within N).mpr
    ⟨hs, fun j _ => hx.clients j⟩
  history := hx.history
  sent := hx.sent

theorem post {ts : List Task} (hx : x.Within N) (hts : ∀ t ∈ ts, N t.path) :
    (x.post i ts).Within N := by
  unfold Exchange.post
  split
  · refine ⟨hx.clients, hx.history,
      (Function.forall_update_iff _ fun _ (ts : List Task) => ∀ t ∈ ts, N t.path).mpr
        ⟨fun t ht => ?_, fun j _ => hx.sent j⟩⟩
    exact (List.mem_append.mp ht).elim (hx.sent i t) (hts t)
  · exact hx

/-- The tasks that have been run, and the next. -/
theorem asked {t : Task} {rest : List Task} (hx : x.Within N) (next : x.outbox i = t :: rest) :
    ∀ u ∈ t :: x.history, N u.path := by
  intro u hu
  rcases List.mem_cons.mp hu with rfl | hu
  · exact hx.sent i u (next ▸ List.mem_cons_self)
  · exact hx.history u hu

theorem step (hx : x.Within N) (h : Step G N frame sem x y) : y.Within N := by
  cases h with
  | learn _ _ stores => exact hx.put ((hx.clients _).learn stores)
  | swap _ swaps => exact hx.put ((hx.clients _).swap swaps)
  | @push i b ls rest next =>
    have hc := hx.clients i
    have hrest : ∀ e ∈ rest, N e.1 := fun e he =>
      hc.publishing e (next ▸ List.mem_cons_of_mem _ he)
    refine (hx.put (s := { x.client i with publishing := rest })
      { hc with publishing := hrest }).post fun t ht => ?_
    unfold Sharer.pushed at ht
    split at ht
    · cases ht
    · obtain rfl := List.mem_singleton.mp ht
      exact hc.publishing _ (next ▸ List.mem_cons_self)
  | plain known plain => exact hx.put ((hx.clients _).plain known plain)
  | load load => exact hx.put ((hx.clients _).load load)
  | execute execute => exact hx.put ((hx.clients _).execute execute)
  | @ask i p amount query header =>
    refine (hx.put (s := { x.client i with asking := true }) { hx.clients i with }).post
      fun t ht => ?_
    obtain rfl := List.mem_singleton.mp ht
    exact (hx.clients i).header p header
  | @read i r rest =>
    have hput := hx.put (i := i) ((hx.clients i).read r)
    exact ⟨hput.clients, hput.history, hput.sent⟩
  | fail => exact hx.put (hx.clients _).giveUp
  | insert _ insert => exact hx.put ((hx.clients _).insert insert)
  | @work i env t rest next =>
    refine ⟨hx.clients, hx.asked next,
      (Function.forall_update_iff _ fun _ (ts : List Task) => ∀ t ∈ ts, N t.path).mpr
        ⟨fun u hu => ?_, fun j _ => hx.sent j⟩⟩
    exact hx.sent i u (next ▸ List.mem_cons_of_mem _ hu)
  | cut => exact ⟨hx.clients, hx.history, hx.sent⟩
  | close => exact ⟨hx.clients, hx.history, hx.sent⟩

end Within

/-- No task of plain branches needs to be kept back. -/
theorem Step.apart (hx : x.Within N) (plain : ∀ b, N b → Plain b) (h : Step G N frame sem x y) :
    Step Apart N frame sem x y := by
  cases h with
  | learn searching right stores => exact .learn searching right stores
  | swap done swaps => exact .swap done swaps
  | push next free => exact .push next free
  | plain known plain => exact .plain known plain
  | load load => exact .load load
  | execute execute => exact .execute execute
  | ask header free fresh linked => exact .ask header free fresh linked
  | read asking linked next => exact .read asking linked next
  | fail fresh broken => exact .fail fresh broken
  | insert harmless insert => exact .insert harmless insert
  | @work i env t rest next =>
    exact .work next (apart_of_plain fun u hu => plain _ (hx.asked next u hu))
  | cut => exact .cut
  | close broken => exact .close broken

theorem Reaches.within (hx : x.Within N) (plain : ∀ b, N b → Plain b)
    (h : Reaches G N frame sem x y) : Reaches Apart N frame sem x y ∧ y.Within N := by
  induction h with
  | refl => exact ⟨.refl, hx⟩
  | tail _ hstep ih => exact ⟨ih.1.tail (hstep.apart ih.2 plain), ih.2.step hstep⟩

end Within

end Exchange

end Smts
