import Mathlib.Data.Fintype.Basic
import Mathlib.Logic.Function.Basic

/-!
# Sections under a readers-writer lock

Threads share a state that they touch only between taking a readers-writer lock and releasing it. A
thread is a local state; which section it enters next, and whether under the read or the write lock,
is a function of that state, and the statements of a section are executed one at a time, with any
steps of other threads in between. A thread that cannot have the lock waits.

However the threads are scheduled, what they do is what they would do if each section were executed
at once, in the order in which the sections end (`Threads.Follows.run`): a section in progress has
done so far what it would have done from the state before it. Since a section ends between the call
and the return of the operation it belongs to, that order respects the order of operations that do
not overlap (`Threads.ends_append`).
-/

namespace Lib

/-- How a section holds the lock. -/
inductive LockMode where
  | read
  | write
deriving DecidableEq

/-- A statement inside a section, on the shared and the local state. -/
abbrev Stmt (σ ρ : Type) := σ × ρ → σ × ρ

/-- What a thread does between taking the lock and releasing it. Under the read lock it writes
nothing shared. -/
structure Critical (σ ρ : Type) where
  mode : LockMode
  body : List (Stmt σ ρ)
  reads_only : mode = .read → ∀ stmt ∈ body, ∀ x, (stmt x).1 = x.1

/-- A thread: outside of the sections, or inside of one with these statements to go. -/
inductive Thread (σ ρ : Type) where
  | outside (r : ρ)
  | inside (sec : Critical σ ρ) (rest : List (Stmt σ ρ)) (r : ρ)

/-- The lock that a thread holds. -/
def Thread.holds {σ ρ : Type} : Thread σ ρ → Option LockMode
  | .outside _ => none
  | .inside sec _ _ => some sec.mode

/-- Whether the lock can be taken in this mode while another thread holds it so. -/
def LockMode.admits : LockMode → Option LockMode → Bool
  | _, none => true
  | .read, some .read => true
  | _, some _ => false

/-- Nobody enters while a writer is inside. -/
theorem LockMode.not_write_of_admits {mode : LockMode} {held : Option LockMode}
    (h : mode.admits held = true) : held ≠ some .write := by
  rintro rfl
  cases mode <;> cases h

/-- A writer enters only when nobody is inside. -/
theorem LockMode.none_of_admits_write {held : Option LockMode}
    (h : LockMode.write.admits held = true) : held = none := by
  rcases held with _ | _ | _
  · rfl
  · cases h
  · cases h

/-- The shared state and the threads. -/
structure Threads (ι σ ρ : Type) where
  shared : σ
  thread : ι → Thread σ ρ

/-- Thread `i` goes on to `th` and leaves the shared state `s`. -/
def Threads.set {ι σ ρ : Type} [DecidableEq ι] (c : Threads ι σ ρ) (i : ι) (s : σ)
    (th : Thread σ ρ) : Threads ι σ ρ :=
  ⟨s, Function.update c.thread i th⟩

theorem Threads.thread_set_self {ι σ ρ : Type} [DecidableEq ι] (c : Threads ι σ ρ) (i : ι) (s : σ)
    (th : Thread σ ρ) : (c.set i s th).thread i = th := by
  simp [Threads.set]

theorem Threads.thread_set_of_ne {ι σ ρ : Type} [DecidableEq ι] (c : Threads ι σ ρ) {i j : ι}
    (h : j ≠ i) (s : σ) (th : Thread σ ρ) : (c.set i s th).thread j = c.thread j := by
  simp [Threads.set, h]

/-- The shared state and the local states, when no section is in progress. -/
structure Serial (ι σ ρ : Type) where
  shared : σ
  locals : ι → ρ

/-- No section in progress. -/
def Serial.start {ι σ ρ : Type} (a : Serial ι σ ρ) : Threads ι σ ρ :=
  ⟨a.shared, fun i => .outside (a.locals i)⟩

section Run

variable {ι σ ρ : Type} [DecidableEq ι]

/-- Statements executed one after the other. -/
def execute (body : List (Stmt σ ρ)) (x : σ × ρ) : σ × ρ := body.foldl (fun x stmt => stmt x) x

theorem execute_append (body body' : List (Stmt σ ρ)) (x : σ × ρ) :
    execute (body ++ body') x = execute body' (execute body x) := by
  rw [execute, List.foldl_append]
  rfl

/-- The statements of a section under the read lock leave the shared state as it is. -/
theorem execute_reads {sec : Critical σ ρ} (hread : sec.mode = .read) {body : List (Stmt σ ρ)}
    (hbody : ∀ stmt ∈ body, stmt ∈ sec.body) (x : σ × ρ) : (execute body x).1 = x.1 := by
  induction body generalizing x with
  | nil => rfl
  | cons stmt rest ih =>
    have hstmt := sec.reads_only hread stmt (hbody stmt List.mem_cons_self) x
    rw [← hstmt]
    exact ih (fun stmt' h => hbody stmt' (List.mem_cons_of_mem _ h)) (stmt x)

variable (next : ρ → Option (Critical σ ρ))

/-- A section executed at once. -/
def Serial.step (i : ι) (a : Serial ι σ ρ) : Serial ι σ ρ :=
  match next (a.locals i) with
  | none => a
  | some sec =>
    ⟨(execute sec.body (a.shared, a.locals i)).1,
      Function.update a.locals i (execute sec.body (a.shared, a.locals i)).2⟩

theorem Serial.locals_step_of_ne (a : Serial ι σ ρ) {i j : ι} (h : j ≠ i) :
    (a.step next i).locals j = a.locals j := by
  unfold Serial.step
  cases next (a.locals i) with
  | none => rfl
  | some sec => exact Function.update_of_ne h _ _

/-- The next sections of these threads, one after the other. -/
def Serial.run (order : List ι) (a : Serial ι σ ρ) : Serial ι σ ρ :=
  order.foldl (fun a i => a.step next i) a

/-- An invariant of the serial steps holds after a serial run. -/
theorem Serial.run_induct {P : Serial ι σ ρ → Prop} (hstep : ∀ a i, P a → P (a.step next i))
    {a : Serial ι σ ρ} (ha : P a) (order : List ι) : P (a.run next order) := by
  induction order generalizing a with
  | nil => exact ha
  | cons i order ih => exact ih (hstep a i ha)

variable [Fintype ι]

/-- One step of a thread: it takes the lock, executes a statement, or releases the lock. It stays
where it is if it has nothing to do or the lock is taken. -/
def Threads.step (i : ι) (c : Threads ι σ ρ) : Threads ι σ ρ :=
  match c.thread i with
  | .outside r =>
    match next r with
    | none => c
    | some sec =>
      if ∀ j, sec.mode.admits (c.thread j).holds = true then
        c.set i c.shared (.inside sec sec.body r)
      else c
  | .inside sec (stmt :: rest) r =>
    c.set i (stmt (c.shared, r)).1 (.inside sec rest (stmt (c.shared, r)).2)
  | .inside _ [] r => c.set i c.shared (.outside r)

/-- The threads take steps in this order. -/
def Threads.run (sched : List ι) (c : Threads ι σ ρ) : Threads ι σ ρ :=
  sched.foldl (fun c i => c.step next i) c

/-- Whether the next step of a thread ends a section. -/
def Thread.ending : Thread σ ρ → Bool
  | .inside _ [] _ => true
  | _ => false

/-- The threads whose sections end, in the order in which they do. -/
def Threads.ends : List ι → Threads ι σ ρ → List ι
  | [], _ => []
  | i :: sched, c =>
    if (c.thread i).ending then i :: Threads.ends sched (c.step next i)
    else Threads.ends sched (c.step next i)

/-- The sections that end later come later. -/
theorem Threads.ends_append (sched sched' : List ι) (c : Threads ι σ ρ) :
    Threads.ends next (sched ++ sched') c = Threads.ends next sched c ++
      Threads.ends next sched' (c.run next sched) := by
  induction sched generalizing c with
  | nil => rfl
  | cons i sched ih =>
    rw [List.cons_append, Threads.ends, Threads.ends, ih]
    split_ifs <;> rfl

/-- With the shared state `s`, thread `i` is where the sections that have ended leave it, or inside
of a section and as far as it leads from there. -/
def Thread.Reached (s : σ) (a : Serial ι σ ρ) (i : ι) : Thread σ ρ → Prop
  | .outside r => a.locals i = r
  | .inside sec rest r => next (a.locals i) = some sec ∧
    ∃ done, sec.body = done ++ rest ∧ execute done (a.shared, a.locals i) = (s, r)

/-- The threads have done the sections that have ended and parts of others. Who writes is alone, and
without a writer the shared state is that of the sections that have ended. -/
structure Threads.Follows (c : Threads ι σ ρ) (a : Serial ι σ ρ) : Prop where
  reached : ∀ i, (c.thread i).Reached next c.shared a i
  exclusive : ∀ i j, i ≠ j → (c.thread i).holds = some .write → (c.thread j).holds = none
  shared : (∀ i, (c.thread i).holds ≠ some .write) → c.shared = a.shared

namespace Threads.Follows

omit [DecidableEq ι] [Fintype ι] in
theorem start (a : Serial ι σ ρ) : Threads.Follows next a.start a where
  reached _ := rfl
  exclusive _ _ _ h := by cases h
  shared _ := rfl

variable {next} {c : Threads ι σ ρ} {a a' : Serial ι σ ρ} {i : ι}

omit [Fintype ι] in
/-- One thread goes on. The others stay, and those that hold the lock see no change. -/
theorem set (h : c.Follows next a) {s : σ} {th : Thread σ ρ}
    (hlocals : ∀ j, j ≠ i → a'.locals j = a.locals j)
    (hkeep : ∀ j, j ≠ i → (c.thread j).holds ≠ none → s = c.shared ∧ a'.shared = a.shared)
    (hreached : th.Reached next s a' i)
    (hheld : ∀ j, j ≠ i → (th.holds = some .write → (c.thread j).holds = none) ∧
      ((c.thread j).holds = some .write → th.holds = none))
    (hshared : (∀ j, j ≠ i → (c.thread j).holds ≠ some .write) → th.holds ≠ some .write →
      s = a'.shared) :
    (c.set i s th).Follows next a' := by
  refine ⟨fun j => ?_, fun j k hne hj => ?_, fun hnone => ?_⟩
  · by_cases hji : j = i
    · subst hji
      rw [thread_set_self]
      exact hreached
    · have hj := h.reached j
      rw [thread_set_of_ne c hji]
      cases hth : c.thread j with
      | outside r =>
        rw [hth] at hj
        exact (hlocals j hji).trans hj
      | inside sec rest r =>
        obtain ⟨hs, ha⟩ := hkeep j hji (by rw [hth]; nofun)
        rw [hth] at hj
        unfold Thread.Reached
        rw [hlocals j hji, ha, show (c.set i s th).shared = s from rfl, hs]
        exact hj
  · by_cases hji : j = i
    · subst hji
      rw [thread_set_self] at hj
      rw [thread_set_of_ne c (Ne.symm hne)]
      exact (hheld k (Ne.symm hne)).1 hj
    · rw [thread_set_of_ne c hji] at hj
      by_cases hki : k = i
      · subst hki
        rw [thread_set_self]
        exact (hheld j hji).2 hj
      · rw [thread_set_of_ne c hki]
        exact h.exclusive j k hne hj
  · refine hshared (fun j hji => ?_) ?_
    · have hj := hnone j
      rwa [thread_set_of_ne c hji] at hj
    · have hi := hnone i
      rwa [thread_set_self] at hi

omit [Fintype ι] in
/-- A thread takes the lock. -/
theorem enter (h : c.Follows next a) {r : ρ} (hi : c.thread i = .outside r) {sec : Critical σ ρ}
    (hnext : next r = some sec) (hfree : ∀ j, sec.mode.admits (c.thread j).holds = true) :
    (c.set i c.shared (.inside sec sec.body r)).Follows next a := by
  have hshared : c.shared = a.shared := h.shared fun j => LockMode.not_write_of_admits (hfree j)
  have hr : a.locals i = r := by
    have hreached := h.reached i
    rw [hi] at hreached
    exact hreached
  refine h.set (fun _ _ => rfl) (fun _ _ _ => ⟨rfl, rfl⟩) ?_ (fun j hji =>
    ⟨fun hwrite => ?_, fun hj => ?_⟩)
    fun _ _ => hshared
  · rw [Thread.Reached, hr]
    exact ⟨hnext, [], rfl, by rw [hshared]; rfl⟩
  · have hmode : sec.mode = .write := Option.some.inj hwrite
    have hj := hfree j
    rw [hmode] at hj
    exact LockMode.none_of_admits_write hj
  · exact absurd hj (LockMode.not_write_of_admits (hfree j))

omit [Fintype ι] in
/-- A thread executes a statement. -/
theorem stmt (h : c.Follows next a) {sec : Critical σ ρ} {stmt : Stmt σ ρ} {rest : List (Stmt σ ρ)}
    {r : ρ} (hi : c.thread i = .inside sec (stmt :: rest) r) :
    (c.set i (stmt (c.shared, r)).1 (.inside sec rest (stmt (c.shared, r)).2)).Follows next a := by
  have hreached := h.reached i
  rw [hi] at hreached
  obtain ⟨hnext, done, hbody, hdone⟩ := hreached
  have hread : sec.mode = .read → (stmt (c.shared, r)).1 = c.shared := fun hread =>
    sec.reads_only hread stmt (by simp [hbody]) _
  have hholds : (c.thread i).holds = some sec.mode := by rw [hi]; rfl
  refine h.set (fun _ _ => rfl) (fun j hji hj => ⟨?_, rfl⟩) ⟨hnext, done ++ [stmt], ?_, ?_⟩
    (fun j hji => ⟨fun hwrite => ?_, fun hj => ?_⟩) fun hothers hself => ?_
  · -- Under the write lock no other thread is inside.
    cases hmode : sec.mode with
    | read => exact hread hmode
    | write => exact absurd (h.exclusive i j (Ne.symm hji) (hholds.trans (congrArg some hmode))) hj
  · rw [hbody, List.append_assoc]
    rfl
  · rw [execute_append, hdone]
    rfl
  · exact h.exclusive i j (Ne.symm hji) (hholds.trans hwrite)
  · have hnone := h.exclusive j i hji hj
    rw [hholds] at hnone
    cases hnone
  · have hmode : sec.mode = .read := by
      cases hmode : sec.mode with
      | read => rfl
      | write => exact absurd (congrArg some hmode) hself
    rw [hread hmode]
    refine h.shared fun j => ?_
    by_cases hji : j = i
    · rw [hji, hholds, hmode]
      nofun
    · exact hothers j hji

omit [Fintype ι] in
/-- A thread releases the lock. -/
theorem leave (h : c.Follows next a) {sec : Critical σ ρ} {r : ρ}
    (hi : c.thread i = .inside sec [] r) :
    (c.set i c.shared (.outside r)).Follows next (a.step next i) := by
  have hreached := h.reached i
  rw [hi] at hreached
  obtain ⟨hnext, done, hbody, hdone⟩ := hreached
  rw [List.append_nil] at hbody
  rw [← hbody] at hdone
  have hstep : a.step next i = ⟨c.shared, Function.update a.locals i r⟩ := by
    unfold Serial.step
    rw [hnext]
    dsimp only
    rw [hdone]
  have hholds : (c.thread i).holds = some sec.mode := by rw [hi]; rfl
  rw [hstep]
  refine h.set (fun j hji => Function.update_of_ne hji _ _) (fun j hji hj => ⟨rfl, ?_⟩)
    (Function.update_self _ _ _) (fun _ _ => ⟨nofun, fun _ => rfl⟩) fun _ _ => rfl
  -- Another thread is inside, so this one has read.
  cases hmode : sec.mode with
  | read =>
    have hexec := execute_reads hmode (fun _ hstmt => hstmt) (a.shared, a.locals i)
    rw [hdone] at hexec
    exact hexec
  | write => exact absurd (h.exclusive i j (Ne.symm hji) (hholds.trans (congrArg some hmode))) hj

/-- A step of a thread is no step of the serial system, or the whole section that ends with it. -/
theorem step (h : c.Follows next a) (i : ι) :
    (c.step next i).Follows next (if (c.thread i).ending then a.step next i else a) := by
  unfold Threads.step
  cases hi : c.thread i with
  | outside r =>
    dsimp only [Thread.ending]
    cases hnext : next r with
    | none => exact h
    | some sec =>
      dsimp only
      by_cases hfree : ∀ j, sec.mode.admits (c.thread j).holds = true
      · rw [if_pos hfree]
        exact h.enter hi hnext hfree
      · rw [if_neg hfree]
        exact h
  | inside sec rest r =>
    cases rest with
    | nil => exact h.leave hi
    | cons stmt rest => exact h.stmt hi

/-- Whatever the schedule, the threads follow the serial run of the sections in the order of their
ends. -/
theorem run (h : c.Follows next a) (sched : List ι) :
    (c.run next sched).Follows next (a.run next (Threads.ends next sched c)) := by
  induction sched generalizing c a with
  | nil => exact h
  | cons i sched ih =>
    have hstep := ih (h.step i)
    rw [Threads.ends]
    split_ifs at hstep ⊢
    · exact hstep
    · exact hstep

omit [DecidableEq ι] [Fintype ι] in
/-- A section that ends is the one its thread was to enter. -/
theorem next_of_ending (h : c.Follows next a) (hi : (c.thread i).ending = true) :
    next (a.locals i) ≠ none := by
  have hreached := h.reached i
  cases hth : c.thread i with
  | outside r =>
    rw [hth] at hi
    cases hi
  | inside sec rest r =>
    rw [hth] at hreached
    rw [hreached.1]
    nofun

/-- Threads that have one section each end it once. -/
theorem nodup_ends (hlast : ∀ (a : Serial ι σ ρ) i, next ((a.step next i).locals i) = none)
    (h : c.Follows next a) (sched : List ι) :
    (Threads.ends next sched c).Nodup ∧ ∀ i ∈ Threads.ends next sched c,
      next (a.locals i) ≠ none := by
  induction sched generalizing c a with
  | nil => exact ⟨List.nodup_nil, fun i hi => by cases hi⟩
  | cons i sched ih =>
    obtain ⟨hnodup, hnext⟩ := ih (h.step i)
    rw [Threads.ends]
    split_ifs at hnext ⊢ with hending
    · have hnot : i ∉ Threads.ends next sched (c.step next i) := fun hi => hnext i hi (hlast a i)
      refine ⟨List.nodup_cons.mpr ⟨hnot, hnodup⟩, fun j hj => ?_⟩
      by_cases hji : j = i
      · rw [hji]
        exact h.next_of_ending hending
      · have hj' := hnext j ((List.mem_cons.mp hj).resolve_left hji)
        rwa [Serial.locals_step_of_ne next a hji] at hj'
    · exact ⟨hnodup, hnext⟩

end Threads.Follows

end Run

end Lib
