import Smts.Lib.Preserves
import Smts.Lib.Run
import Smts.LemmaServer.Marks

namespace Smts.LemmaServer

open Smts.Lib
open Smts.Lib.Prog

/-- All tables of marks belong to one of the clients. -/
def State.Owned (clients : List Nat) (s : State) : Prop :=
  ∀ name, ∀ e ∈ s.solvers name, e.1 ∈ clients

section Owned

variable {clients : List Nat} {client : Nat} {name : Bytes}

theorem owned_modifyMarks (hc : client ∈ clients) (f : Table Pointer Bool → Table Pointer Bool) :
    Preserves (State.Owned clients) (modifyMarks name client f) := by
  refine .modify fun s h n e he => ?_
  by_cases hn : n = name
  · subst hn
    dsimp only at he
    rw [Function.update_self] at he
    rcases Table.mem_put he with rfl | he
    · exact hc
    · exact h n e he
  · dsimp only at he
    rw [Function.update_of_ne hn] at he
    exact h n e he

theorem owned_modifyTree (f : Trie Index → Trie Index) :
    Preserves (State.Owned clients) (modifyTree name f) := .modify fun _ h => h

theorem owned_garbageCollect (env : Env) (n : Nat) :
    Preserves (State.Owned clients) (garbageCollect env n name) := by
  refine .modify fun s h => ?_
  dsimp only
  split
  · intro m e he
    dsimp only at he
    by_cases hm : m = name
    · subst hm
      rw [Function.update_self] at he
      have hkey := List.mem_map_of_mem (f := Prod.fst) he
      rw [keys_eraseTables] at hkey
      obtain ⟨e', he', heq⟩ := List.mem_map.mp hkey
      exact heq ▸ h m e' ((env.walk_perm _).mem_iff.mp he')
    · rw [Function.update_of_ne hm] at he
      exact h m e he
  · exact h

theorem owned_clear : Preserves (State.Owned clients) (clear name) := by
  refine .modify fun s h n e he => ?_
  dsimp only at he
  by_cases hn : n = name
  · subst hn
    rw [Function.update_self] at he
    exact absurd he List.not_mem_nil
  · rw [Function.update_of_ne hn] at he
    exact h n e he

theorem owned_index (a : Address) : Preserves (State.Owned clients) (index name a) := by
  refine .bind (.gets _) fun o => ?_
  cases o with
  | none => exact .raise _
  | some index => exact .pure index

theorem owned_visit (acc : List Address × Nat) (token : Bytes) :
    Preserves (State.Owned clients) (visit name acc token) := by
  have child (a : Address) (i : Int) : Preserves (State.Owned clients) (child name a i) :=
    .bind (owned_modifyTree _) fun _ => .ite (.raise _) (.pure _)
  exact .ite (.bind (.ofExcept _) fun i => .bind (child _ i) fun _ => .pure _) (.pure _)

theorem owned_push (hc : client ∈ clients) (env : Env) (path : List Address)
    (body : List NetLemma) : Preserves (State.Owned clients) (push env name client path body) := by
  have pushLemma (l : NetLemma) :
      Preserves (State.Owned clients) (pushLemma name client path l) := by
    refine .ite (.raise _) (.bind (owned_index _) fun index => ?_)
    split
    · exact .bind (owned_modifyTree _) fun _ => owned_modifyMarks hc _
    · exact .bind (owned_modifyTree _) fun _ => owned_modifyMarks hc _
  exact .bind (owned_modifyMarks hc id) fun _ => .bind (owned_garbageCollect env _) fun _ =>
    .forEach pushLemma body

theorem owned_pull (hc : client ∈ clients) (env : Env) (header : Header)
    (path : List Address) (request : Nat) :
    Preserves (State.Owned clients) (pull env header client path request) := by
  have filter (name : Bytes) (ls : List (Pointer × Lemma)) (a : Address) :
      Preserves (State.Owned clients) (filter name client ls a) := by
    refine .bind (owned_index a) fun index => .foldEach (fun ls e => ?_) ls index
    exact .bind (.bind (owned_modifyMarks hc _) fun _ => .gets _) fun b => .ite (.pure _) (.pure _)
  have answer (ls : List NetLemma) :
      Preserves (State.Owned clients) (answer env header client ls) :=
    .ite (.modify fun _ h => h) (.raise _)
  refine .bind (owned_modifyMarks hc id) fun _ => .bind (.foldEach (filter _) [] path) fun ls => ?_
  exact .bind (.gets _) fun b => .bind (.when (.forEach (fun l => owned_modifyMarks hc _) _))
    fun _ => answer _

theorem owned_lemmaWorker (hc : client ∈ clients) (env : Env) (event : Event) :
    Preserves (State.Owned clients) (lemmaWorker env client event) := by
  refine .bind (.ofExcept _) fun request => .bind (.modify fun _ h => h) fun _ =>
    .bind (.ofExcept _) fun code => .bind (.foldEach owned_visit _ _) fun path =>
    .bind (.when owned_clear) fun _ => ?_
  exact .ite (owned_push hc env _ _) (.ite (owned_pull hc env _ _ _) (.pure ()))

end Owned

/-- What `handle_event` does with a message, reports of unusable ones aside. -/
inductive Handled
  | exit
  | nothing
  | task (event : Event)

/-- Looking the lemmas up enters them, so that they are never missing afterwards. -/
def handleEvent (event : Event) : Handled :=
  let header := if event.header.has "lemmas" then event.header else event.header.set "lemmas" []
  if get header "lemmas" = utf8 "0" then .exit
  else if header.has "max_memory" then .nothing
  else if !header.has "name" || !header.has "node" || !header.has "lemmas" then .nothing
  else if (get header "node").length < 2 then .nothing
  else .task { event with header }

/-- The network thread and the pool thread.  `sockets` are the clients whose socket objects
are registered; such an object lives until it is taken out. -/
structure Threads where
  sockets : List Nat := []
  counter : Nat := 0
  idToSocket : List Nat := []
  queue : List (Nat × Event) := []
  running : Option (Nat × Event) := none
  store : State := {}
  exited : Bool := false

/-- The first three are the network thread's, the others the pool thread's. -/
inductive Move
  | accept
  | receive (client : Nat) (event : Event)
  | close (client : Nat)
  | begin
  | finish (env : Env)

namespace Threads

def step (s : Threads) (m : Move) : Option Threads :=
  if s.exited then none
  else
    match m with
    | .accept =>
      some { s with
        sockets := s.sockets ++ [s.counter + 1]
        counter := s.counter + 1
        idToSocket := s.idToSocket ++ [s.counter + 1] }
    | .receive client event =>
      if client ∈ s.sockets then
        match handleEvent event with
        | .exit => some { s with exited := true }
        | .nothing => some s
        | .task event => some { s with queue := s.queue ++ [(client, event)] }
      else none
    | .close client =>
      if client ∈ s.sockets then
        some { s with
          sockets := s.sockets.filter (· ≠ client)
          store := forget client s.store }
      else none
    | .begin =>
      match s.running, s.queue with
      | none, t :: queue => some { s with running := some t, queue := queue }
      | _, _ => none
    | .finish env =>
      match s.running with
      | some t => some { s with running := none, store := (lemmaWorker env t.1 t.2 s.store).2 }
      | none => none

/-- A client's connection is closed when no task of it is left. -/
def Settled (s : Threads) : Move → Prop
  | .close client => (∀ t ∈ s.queue, t.1 ≠ client) ∧ ∀ t ∈ s.running, t.1 ≠ client
  | _ => True

instance (s : Threads) : (m : Move) → Decidable (s.Settled m)
  | .close _ => inferInstanceAs (Decidable (_ ∧ _))
  | .accept | .receive _ _ | .begin | .finish _ => isTrue trivial

/-- All tasks, and all marks, belong to clients that are there. -/
structure Attached (s : Threads) : Prop where
  mapped : ∀ c ∈ s.sockets, c ∈ s.idToSocket
  queue : ∀ t ∈ s.queue, t.1 ∈ s.sockets
  running : ∀ t ∈ s.running, t.1 ∈ s.sockets
  owned : s.store.Owned s.sockets

theorem step_attached (s : Threads) (m : Move) (t : Threads) (h : s.Attached)
    (hG : s.Settled m) (hs : s.step m = some t) : t.Attached := by
  unfold step at hs
  split at hs
  · exact nomatch hs
  cases m with
  | accept =>
    cases hs
    have hmem {c : Nat} (hc : c ∈ s.sockets) : c ∈ s.sockets ++ [s.counter + 1] :=
      List.mem_append_left _ hc
    refine ⟨fun c hc => ?_, fun t ht => hmem (h.queue t ht), fun t ht => hmem (h.running t ht),
      fun name e he => hmem (h.owned name e he)⟩
    exact List.mem_append.mpr ((List.mem_append.mp hc).imp_left (h.mapped c))
  | receive client event =>
    dsimp only at hs
    split at hs
    · next hc =>
      split at hs
      · cases hs
        exact ⟨h.mapped, h.queue, h.running, h.owned⟩
      · cases hs
        exact h
      · next event _ =>
        cases hs
        refine ⟨h.mapped, fun t ht => ?_, h.running, h.owned⟩
        rcases List.mem_append.mp ht with ht | ht
        · exact h.queue t ht
        · obtain rfl := List.mem_singleton.mp ht
          exact hc
    · exact nomatch hs
  | close client =>
    dsimp only at hs
    split at hs
    · cases hs
      have hmem {c : Nat} (hc : c ∈ s.sockets) (hne : c ≠ client) :
          c ∈ s.sockets.filter (· ≠ client) := List.mem_filter.mpr ⟨hc, by simpa using hne⟩
      refine ⟨fun c hc => h.mapped c (List.mem_of_mem_filter hc),
        fun t ht => hmem (h.queue t ht) (hG.1 t ht),
        fun t ht => hmem (h.running t ht) (hG.2 t ht), fun name e he => ?_⟩
      obtain ⟨he, hne⟩ := List.mem_filter.mp he
      exact hmem (h.owned name e he) (by simpa using hne)
    · exact nomatch hs
  | begin =>
    dsimp only at hs
    split at hs
    · next t queue _ hqueue =>
      cases hs
      have hmem (t' : Nat × Event) (ht : t' ∈ t :: queue) : t'.1 ∈ s.sockets :=
        h.queue t' (hqueue ▸ ht)
      refine ⟨h.mapped, fun t' ht => hmem t' (List.mem_cons_of_mem t ht), fun t' ht => ?_, h.owned⟩
      obtain rfl := Option.mem_some_iff.mp ht
      exact hmem t List.mem_cons_self
    · exact nomatch hs
  | finish env =>
    dsimp only at hs
    split at hs
    · next t hrunning =>
      cases hs
      have hc : t.1 ∈ s.sockets := h.running t hrunning
      exact ⟨h.mapped, h.queue, fun _ ht => (nomatch ht), owned_lemmaWorker hc env t.2 _ h.owned⟩
    · exact nomatch hs

/-- The server at its start. -/
def start (sendAgain : Bool) : Threads where
  store := { sendAgain }

theorem start_attached (sendAgain : Bool) : (start sendAgain).Attached where
  mapped _ hc := absurd hc List.not_mem_nil
  queue _ ht := absurd ht List.not_mem_nil
  running _ ht := nomatch ht
  owned _ _ he := absurd he List.not_mem_nil

/-- As long as no client is closed before its tasks are done, a running task has a live
socket, and closed clients have no marks. -/
theorem tasks_attached {sendAgain : Bool} {s : Threads} (h : Lib.Run step Settled (start sendAgain) s) :
    (∀ t, s.running = some t → t.1 ∈ s.sockets ∧ t.1 ∈ s.idToSocket) ∧
      ∀ c, c ∉ s.sockets → ∀ name, c ∉ (s.store.solvers name).map Prod.fst := by
  have hs : s.Attached := h.invariant step_attached (start_attached sendAgain)
  refine ⟨fun t ht => ⟨hs.running t ht, hs.mapped t.1 (hs.running t ht)⟩, fun c hc name hmem => ?_⟩
  obtain ⟨e, he, rfl⟩ := List.mem_map.mp hmem
  exact hc (hs.owned name e he)

/-- A client asks for lemmas. -/
def request : Event where
  header := [(utf8 "name", utf8 "a.smt2"), (utf8 "node", utf8 "[]"), (utf8 "lemmas", utf8 "-5")]

/-- One client leaves after its task, the task of the other one is running. -/
def patient : List Move :=
  [.accept, .accept, .receive 1 request, .receive 2 request, .begin, .finish .sorting, .close 1,
    .begin]

theorem tasks_attached_patient :
    ∃ s, patient.foldlM (guarded step Settled) (start false) = some s ∧
      s.running.map Prod.fst = some 2 ∧
      (∀ t, s.running = some t → t.1 ∈ s.sockets ∧ t.1 ∈ s.idToSocket) ∧
      ∀ c, c ∉ s.sockets → ∀ name, c ∉ (s.store.solvers name).map Prod.fst := by
  have h := (Option.some_get (x := patient.foldlM (guarded step Settled) (start false))
    (by decide +kernel)).symm
  exact ⟨_, h, by decide +kernel, tasks_attached (.of_script h)⟩

/-- The client leaves while its task is queued. -/
def hasty : List Move := [.accept, .receive 1 request, .close 1, .begin]

theorem tasks_outlive :
    (∃ s, Lib.Run step (fun _ _ => True) (start false) s ∧ s.running.map Prod.fst = some 1 ∧
      s.idToSocket = [1] ∧ s.sockets = []) ∧
    ∃ s, Lib.Run step (fun _ _ => True) (start false) s ∧ s.sockets = [] ∧
      (s.store.solvers (utf8 "a.smt2")).map Prod.fst = [1] := by
  have hrun := (Option.some_get (x := hasty.foldlM (guarded step fun _ _ => True) (start false))
    (by decide +kernel)).symm
  have hdone := (Option.some_get
    (x := (hasty ++ [Move.finish .sorting]).foldlM (guarded step fun _ _ => True) (start false))
    (by decide +kernel)).symm
  exact ⟨⟨_, .of_script hrun, by decide +kernel, by decide +kernel, by decide +kernel⟩,
    _, .of_script hdone, by decide +kernel, by decide +kernel⟩

end Threads

end Smts.LemmaServer
