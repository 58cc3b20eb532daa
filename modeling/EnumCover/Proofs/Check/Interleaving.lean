import Mathlib.Logic.Relation
import EnumCover.Proofs.Coverage.Findings

namespace EnumCover

/-- The questions of a worker: it has its result, or asks about a type and goes on with the
answer. -/
inductive Client (α : Type) where
  | done (result : α)
  | ask (t : NamedType) (next : Bool → Client α)

namespace Client

variable {α β : Type}

def bind : Client α → (α → Client β) → Client β
  | done a, k => k a
  | ask t next, k => ask t fun b => (next b).bind k

/-- The result if all questions are answered in the given way. -/
def result (answer : NamedType → Bool) : Client α → α
  | done a => a
  | ask t next => (next (answer t)).result answer

def questions (answer : NamedType → Bool) : Client α → Nat
  | done _ => 0
  | ask t next => (next (answer t)).questions answer + 1

def run : Client α → Lookup → α × Lookup
  | done a, r => (a, r)
  | ask t next, r => (next (r.ask t).1).run (r.ask t).2

theorem run_bind (c : Client α) (k : α → Client β) (r : Lookup) :
    (c.bind k).run r = (k (c.run r).1).run (c.run r).2 := by
  induction c generalizing r with
  | done a => rfl
  | ask t next ih => exact ih _ _

theorem run_program (c : Client α) (r : Lookup) : (c.run r).2.program = r.program := by
  induction c generalizing r with
  | done a => rfl
  | ask t next ih => exact (ih _ _).trans (r.ask_program t)

theorem run_fst {p : Program} {r : Lookup} (h : r.Answers p) (c : Client α) :
    (c.run r).1 = c.result p.isMarkedType := by
  induction c generalizing r with
  | done a => rfl
  | ask t next ih =>
    rw [run, h.ask_fst t, result]
    exact ih _ (h.ask_snd t)

end Client

section FileClients

variable (p : Program)

def Switch.client (file : String) (s : Switch) : Client Findings :=
  match s.tag with
  | none => .done ⟨[], { total := 1 }⟩
  | some _ =>
    match s.tagType?.bind TypeRef.asNamed? with
    | none => .done (.ofOutcome file s.span.start .notApplicable)
    | some t => .ask t fun exhaustive => .done (.ofOutcome file s.span.start
        (if exhaustive then p.coverage t s.clauses else .notApplicable))

def clientOfSwitches (file : String) : List Switch → Client Findings
  | [] => .done {}
  | s :: ss => (s.client p file).bind fun here =>
    (clientOfSwitches file ss).bind fun rest => .done (here.append rest)

/-- What a worker asks about a file, switch by switch. -/
def SourceFile.client (f : SourceFile) : Client Findings := clientOfSwitches p f.name f.switches

variable {p} {r : Lookup}

theorem Switch.run_client (h : r.program = p) (file : String) (s : Switch) :
    (s.client p file).run r = r.findSwitch file s := by
  unfold Switch.client Lookup.findSwitch Lookup.outcome
  cases s.tag with
  | none => rfl
  | some tag =>
    cases s.tagType?.bind TypeRef.asNamed? with
    | none => rfl
    | some t => simp only [Client.run, r.ask_program t, h]

theorem run_clientOfSwitches (h : r.program = p) (file : String) (ss : List Switch) :
    (clientOfSwitches p file ss).run r = r.findSwitches file ss := by
  induction ss generalizing r with
  | nil => rfl
  | cons s ss ih =>
    have hs : (r.findSwitch file s).2.program = p := by
      rw [← Switch.run_client h, Client.run_program, h]
    rw [clientOfSwitches, Client.run_bind, Switch.run_client h, Client.run_bind, ih hs]
    rfl

theorem SourceFile.run_client (h : r.program = p) (f : SourceFile) :
    (f.client p).run r = r.findFile f :=
  run_clientOfSwitches h f.name f.switches

theorem SourceFile.result_client (f : SourceFile) :
    (f.client p).result p.isMarkedType = p.findings f := by
  have h := Lookup.answers_new p false
  rw [← Client.run_fst h, SourceFile.run_client h.program_eq]
  exact (h.findFile f).1

end FileClients

inductive Worker (α : Type) where
  | ready (c : Client α)
  /-- The memo had no answer when it was read. -/
  | missed (t : NamedType) (next : Bool → Client α)
  /-- The answer has been looked up and is not stored yet. -/
  | resolved (t : NamedType) (answer : Bool) (next : Bool → Client α)

namespace Worker

variable {α : Type}

def result (answer : NamedType → Bool) : Worker α → α
  | ready c => c.result answer
  | missed t next => (next (answer t)).result answer
  | resolved _ b next => (next b).result answer

def work (answer : NamedType → Bool) : Worker α → Nat
  | ready c => 3 * c.questions answer
  | missed t next => 3 * (next (answer t)).questions answer + 2
  | resolved _ b next => 3 * (next b).questions answer + 1

/-- An answer that is going to be stored is right. -/
def Sound (p : Program) : Worker α → Prop
  | ready _ | missed _ _ => True
  | resolved t b _ => b = p.isMarkedType t

end Worker

/-- Workers with their memo, and all answers that questions have got so far. -/
structure Shared (α : Type) where
  memo : List (NamedType × Bool)
  workers : List (Worker α)
  given : List (NamedType × Bool)

namespace Shared

variable {α : Type}

def start (clients : List (Client α)) : Shared α := ⟨[], clients.map .ready, []⟩

/-- One step of one worker. Reading and storing are steps of their own, and looking up a type takes
place between them. -/
inductive Step (p : Program) : Shared α → Shared α → Prop where
  | hit {s : Shared α} {i : Nat} {t : NamedType} {next : Bool → Client α} {b : Bool}
    (hw : s.workers[i]? = some (.ready (.ask t next))) (hb : s.memo.lookup t = some b) :
    Step p s ⟨s.memo, s.workers.set i (.ready (next b)), (t, b) :: s.given⟩
  | miss {s : Shared α} {i : Nat} {t : NamedType} {next : Bool → Client α}
    (hw : s.workers[i]? = some (.ready (.ask t next))) (hb : s.memo.lookup t = none) :
    Step p s ⟨s.memo, s.workers.set i (.missed t next), s.given⟩
  | look {s : Shared α} {i : Nat} {t : NamedType} {next : Bool → Client α}
    (hw : s.workers[i]? = some (.missed t next)) :
    Step p s ⟨s.memo, s.workers.set i (.resolved t (p.isMarkedType t) next), s.given⟩
  | store {s : Shared α} {i : Nat} {t : NamedType} {b : Bool} {next : Bool → Client α}
    (hw : s.workers[i]? = some (.resolved t b next)) :
    Step p s ⟨(t, b) :: s.memo, s.workers.set i (.ready (next b)), (t, b) :: s.given⟩

def Steps (p : Program) : Shared α → Shared α → Prop := Relation.ReflTransGen (Step p)

/-- A question to a lookup with a memo is the case where no other worker takes a step before it is
answered. -/
theorem steps_ask {p : Program} {s : Shared α} {i : Nat} {t : NamedType} {next : Bool → Client α}
    (hw : s.workers[i]? = some (.ready (.ask t next))) {b : Bool}
    {memo : List (NamedType × Bool)}
    (hask : (Lookup.mk p (some s.memo)).ask t = (b, ⟨p, some memo⟩)) :
    Steps p s ⟨memo, s.workers.set i (.ready (next b)), (t, b) :: s.given⟩ := by
  obtain ⟨hlt, -⟩ := List.getElem?_eq_some_iff.mp hw
  cases hb : s.memo.lookup t with
  | some known =>
    simp only [Lookup.ask, hb, Prod.mk.injEq, Lookup.mk.injEq, Option.some.injEq, true_and] at hask
    obtain ⟨rfl, rfl⟩ := hask
    exact .single (.hit hw hb)
  | none =>
    simp only [Lookup.ask, hb, Prod.mk.injEq, Lookup.mk.injEq, Option.some.injEq, true_and] at hask
    obtain ⟨rfl, rfl⟩ := hask
    have hmissed := Relation.ReflTransGen.single (Step.miss (p := p) hw hb)
    have hlooked := hmissed.tail (.look (i := i) (List.getElem?_set_self hlt))
    rw [List.set_set] at hlooked
    have hstored := hlooked.tail (.store (i := i) (List.getElem?_set_self hlt))
    rwa [List.set_set] at hstored

/-- All workers have their results. -/
def Finished (s : Shared α) (results : List α) : Prop :=
  s.workers = results.map fun a => .ready (.done a)

/-- The memo, the answers given and those about to be stored are right, and every worker is on the
way to its result. -/
structure Inv (p : Program) (results : List α) (s : Shared α) : Prop where
  memo : p.Confirms s.memo
  given : p.Confirms s.given
  sound : ∀ w ∈ s.workers, w.Sound p
  results_eq : s.workers.map (Worker.result p.isMarkedType) = results

variable {p : Program} {results : List α} {s s' : Shared α}

theorem start_inv (p : Program) (clients : List (Client α)) :
    Inv p (clients.map (·.result p.isMarkedType)) (start clients) := by
  refine ⟨p.confirms_nil, p.confirms_nil, ?_, ?_⟩
  · intro w hw
    obtain ⟨c, -, rfl⟩ := List.mem_map.mp hw
    trivial
  · rw [start, List.map_map]
    rfl

theorem Inv.set (h : Inv p results s) {i : Nat} {w w' : Worker α} (hw : s.workers[i]? = some w)
    (hsound : w'.Sound p) (hresult : w'.result p.isMarkedType = w.result p.isMarkedType)
    {memo given : List (NamedType × Bool)} (hmemo : p.Confirms memo) (hgiven : p.Confirms given) :
    Inv p results ⟨memo, s.workers.set i w', given⟩ := by
  refine ⟨hmemo, hgiven, ?_, ?_⟩
  · intro v hv
    rcases List.mem_or_eq_of_mem_set hv with hv | rfl
    · exact h.sound v hv
    · exact hsound
  · have hi : (s.workers.map (Worker.result p.isMarkedType))[i]? =
        some (w.result p.isMarkedType) := by rw [List.getElem?_map, hw, Option.map_some]
    obtain ⟨hlt, he⟩ := List.getElem?_eq_some_iff.mp hi
    rw [List.map_set, hresult, ← he, List.set_getElem_self, h.results_eq]

theorem Inv.step (h : Inv p results s) (hstep : Step p s s') : Inv p results s' := by
  cases hstep with
  | hit hw hb =>
    -- what is read from the memo is right, so the worker goes on as it would without one
    obtain rfl := h.memo.lookup hb
    refine h.set hw ?_ ?_ h.memo (h.given.cons _)
    · trivial
    · rfl
  | miss hw hb =>
    refine h.set hw ?_ ?_ h.memo h.given
    · trivial
    · rfl
  | look hw =>
    refine h.set hw ?_ ?_ h.memo h.given
    · exact rfl
    · rfl
  | store hw =>
    -- another worker may have stored the type since, with the same answer
    obtain rfl := h.sound _ (List.mem_of_getElem? hw)
    refine h.set hw ?_ ?_ (h.memo.cons _) (h.given.cons _)
    · trivial
    · rfl

theorem Inv.steps (h : Inv p results s) (hsteps : Steps p s s') : Inv p results s' := by
  induction hsteps with
  | refl => exact h
  | tail _ hstep ih => exact ih.step hstep

theorem Inv.finished (h : Inv p results s) {found : List α} (hf : s.Finished found) :
    found = results := by
  rw [← h.results_eq, hf, List.map_map]
  exact (List.map_id found).symm

/-- A bound on the steps that are left. -/
def work (p : Program) (s : Shared α) : Nat := (s.workers.map (Worker.work p.isMarkedType)).sum

theorem work_set_lt {ws : List (Worker α)} {i : Nat} {w w' : Worker α} {f : Worker α → Nat}
    (hw : ws[i]? = some w) (hlt : f w' < f w) :
    ((ws.set i w').map f).sum < (ws.map f).sum := by
  induction ws generalizing i with
  | nil => cases hw
  | cons v ws ih =>
    cases i with
    | zero =>
      obtain rfl := Option.some.inj hw
      simpa using hlt
    | succ i =>
      have := ih (i := i) (by simpa using hw)
      simp only [List.set_cons_succ, List.map_cons, List.sum_cons]
      omega

theorem Inv.work_lt (h : Inv p results s) (hstep : Step p s s') : s'.work p < s.work p := by
  cases hstep with
  | hit hw hb =>
    obtain rfl := h.memo.lookup hb
    apply work_set_lt hw
    simp only [Worker.work, Client.questions]
    omega
  | miss hw hb =>
    apply work_set_lt hw
    simp only [Worker.work, Client.questions]
    omega
  | look hw =>
    apply work_set_lt hw
    simp only [Worker.work]
    omega
  | store hw =>
    apply work_set_lt hw
    simp only [Worker.work]
    omega

theorem exists_results_or (ws : List (Worker α)) :
    (∃ found : List α, ws = found.map fun a => .ready (.done a)) ∨
      ∃ w ∈ ws, ∀ a, w ≠ .ready (.done a) := by
  induction ws with
  | nil => exact .inl ⟨[], rfl⟩
  | cons w ws ih =>
    rcases ih with ⟨found, rfl⟩ | ⟨v, hv, hne⟩
    · by_cases hw : ∃ a, w = .ready (.done a)
      · obtain ⟨a, rfl⟩ := hw
        exact .inl ⟨a :: found, rfl⟩
      · exact .inr ⟨w, List.mem_cons_self, not_exists.mp hw⟩
    · exact .inr ⟨v, List.mem_cons_of_mem w hv, hne⟩

theorem finished_or_step (p : Program) (s : Shared α) :
    (∃ found, s.Finished found) ∨ ∃ s', Step p s s' := by
  rcases exists_results_or s.workers with h | ⟨w, hw, hne⟩
  · exact .inl h
  · right
    obtain ⟨i, hi⟩ := List.mem_iff_getElem?.mp hw
    cases w with
    | ready c =>
      cases c with
      | done a => exact absurd rfl (hne a)
      | ask t next =>
        cases hb : s.memo.lookup t with
        | none => exact ⟨_, .miss hi hb⟩
        | some b => exact ⟨_, .hit hi hb⟩
    | missed t next => exact ⟨_, .look hi⟩
    | resolved t b next => exact ⟨_, .store hi⟩

theorem Inv.exists_finished (h : Inv p results s) : ∃ s', Steps p s s' ∧ s'.Finished results := by
  -- each step leaves less work, so steps can be added until none is left
  induction hn : s.work p using Nat.strongRecOn generalizing s with
  | ind n ih =>
    rcases finished_or_step p s with ⟨found, hf⟩ | ⟨s₁, hstep⟩
    · obtain rfl := h.finished hf
      exact ⟨s, .refl, hf⟩
    · obtain ⟨s', hsteps, hf⟩ := ih (s₁.work p) (hn ▸ h.work_lt hstep) (h.step hstep) rfl
      exact ⟨s', .head hstep hsteps, hf⟩

end Shared

def Program.fileClients (p : Program) (ignore : List String) : List (Client Findings) :=
  (p.checkedFiles ignore).map (·.client p)

theorem Program.fileClients_inv (p : Program) (ignore : List String) :
    Shared.Inv p ((p.checkedFiles ignore).map p.findings) (.start (p.fileClients ignore)) := by
  have h := Shared.start_inv p (p.fileClients ignore)
  have hresult : (Client.result p.isMarkedType ∘ fun f : SourceFile => f.client p) =
      p.findings := by
    funext f
    exact f.result_client
  rwa [Program.fileClients, List.map_map, hresult] at h

/-- Whatever the workers ask and in whatever order they take their steps, every answer in the memo
and every answer given is that of a lookup without a memo. A check therefore reports the same with a
memo as without one, and so does every run in which the files of a check are looked at by workers
that share a memo; none of these runs gets stuck. -/
theorem memo_transparent (p : Program) :
    (∀ (α : Type) (clients : List (Client α)) (s : Shared α),
      Shared.Steps p (.start clients) s →
        (∀ t b, (t, b) ∈ s.memo → b = p.isMarkedType t) ∧
        ∀ t b, (t, b) ∈ s.given → b = ((Lookup.plain p).ask t).1) ∧
    (∀ ignore, p.check ⟨true, ignore⟩ = p.check ⟨false, ignore⟩) ∧
    ∀ (ignore : List String) (s : Shared Findings),
      Shared.Steps p (.start (p.fileClients ignore)) s →
        (∀ found, s.Finished found → Report.ofFindings found = p.check ⟨false, ignore⟩) ∧
        ∃ s' found, Shared.Steps p s s' ∧ s'.Finished found := by
  refine ⟨?_, ?_, ?_⟩
  · intro α clients s hsteps
    have h := (Shared.start_inv p clients).steps hsteps
    exact ⟨h.memo, h.given⟩
  · intro ignore
    rw [p.check_eq, p.check_eq]
  · intro ignore s hsteps
    have h := (p.fileClients_inv ignore).steps hsteps
    constructor
    · intro found hf
      rw [h.finished hf, p.check_eq]
    · obtain ⟨s', hs', hf⟩ := h.exists_finished
      exact ⟨s', _, hs', hf⟩

def markedDay : Program :=
  ⟨[⟨"p", true, [], [⟨"a.go", [⟨"//exhaustive-enum", ⟨⟨1, 1⟩, ⟨1, 18⟩⟩⟩],
    [.types ⟨⟨2, 1⟩, ⟨2, 13⟩⟩ [⟨"Day", ⟨⟨2, 6⟩, ⟨2, 13⟩⟩⟩],
      .consts ⟨⟨3, 1⟩, ⟨3, 20⟩⟩ [⟨"Monday", ⟨⟨3, 7⟩, ⟨3, 20⟩⟩, .named ⟨"p", "Day"⟩, .int 0⟩],
      .func "f" ⟨⟨4, 1⟩, ⟨6, 2⟩⟩ [.switch (.mk ⟨⟨5, 2⟩, ⟨5, 15⟩⟩ none
        (some (.ident "d" (some (.named ⟨"p", "Day"⟩)) none)) [])]]⟩]⟩]⟩

/-- Two workers miss the same type before either of them stores its answer, and the files of a
check can be looked at to the end. -/
theorem memo_transparent_two_misses :
    (∃ s : Shared Bool, Shared.Steps markedDay
        (.start [.ask ⟨"p", "Day"⟩ .done, .ask ⟨"p", "Day"⟩ .done]) s ∧
      s.memo = [(⟨"p", "Day"⟩, true), (⟨"p", "Day"⟩, true)] ∧
      (∀ t b, (t, b) ∈ s.memo → b = markedDay.isMarkedType t) ∧
      ∀ t b, (t, b) ∈ s.given → b = ((Lookup.plain markedDay).ask t).1) ∧
    ∃ s found, Shared.Steps markedDay (.start (markedDay.fileClients [])) s ∧
      s.Finished found ∧ Report.ofFindings found = markedDay.check ⟨false, []⟩ := by
  have hsteps : Shared.Steps markedDay
      (.start [.ask ⟨"p", "Day"⟩ .done, .ask ⟨"p", "Day"⟩ .done])
      ⟨[(⟨"p", "Day"⟩, true), (⟨"p", "Day"⟩, true)], [.ready (.done true), .ready (.done true)],
        [(⟨"p", "Day"⟩, true), (⟨"p", "Day"⟩, true)]⟩ := by
    refine .head (.miss (i := 0) rfl rfl) ?_
    refine .head (.miss (i := 1) rfl rfl) ?_
    refine .head (.look (i := 0) rfl) ?_
    refine .head (.look (i := 1) rfl) ?_
    refine .head (.store (i := 0) rfl) ?_
    refine .head (.store (i := 1) rfl) ?_
    exact .refl
  have h := (memo_transparent markedDay).1 Bool _ _ hsteps
  obtain ⟨-, s, found, hs, hf⟩ := (memo_transparent markedDay).2.2 [] _ .refl
  have hreport := ((memo_transparent markedDay).2.2 [] s hs).1 found hf
  exact ⟨⟨_, hsteps, rfl, h.1, h.2⟩, s, found, hs, hf, hreport⟩

end EnumCover
