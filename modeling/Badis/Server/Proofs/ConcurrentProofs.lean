import Badis.Server.Concurrent

/-!
# Goroutines under a lock

Sections under a lock are executed as if at once, in the order in which they end
(`Threads.Follows`). So the slot map is linearizable (`slotMap_linearizable`). For the clients of
the proxy the serial run has the invariant `OneEach`: there is one client for an address, and it is
in the map.
-/

namespace Badis

open Lib

/-! ## The slot map -/

section Slots

variable {ι : Type} [DecidableEq ι] {calls : ι → SlotCall} {a : Serial ι SlotMap SlotCaller} {i : ι}

/-- The statements of a section of the slot map do together what the call does at once. -/
theorem SlotCall.execute_critical (call : SlotCall) (s : SlotMap) (g : SlotCaller) :
    (execute call.critical.body (s, g)).1 = (call.serve s).2 ∧
      (execute call.critical.body (s, g)).2.answer = some (call.serve s).1 ∧
      (execute call.critical.body (s, g)).2.call = g.call := by
  cases call <;> exact ⟨rfl, rfl, rfl⟩

/-- A call that has been answered has nothing left to do. -/
theorem slotStep_answered (hi : (a.locals i).answer.isSome = true) :
    a.step SlotCaller.next i = a := by
  unfold Serial.step SlotCaller.next
  rw [if_pos hi]

/-- The section of a call that has not been answered is the call on its own. -/
theorem slotStep_eq {call : SlotCall} (hcall : (a.locals i).call = call)
    (hi : (a.locals i).answer = none) :
    (a.step SlotCaller.next i).shared = (call.serve a.shared).2 ∧
      ((a.step SlotCaller.next i).locals i).answer = some (call.serve a.shared).1 ∧
      ((a.step SlotCaller.next i).locals i).call = call := by
  have hnext : (a.locals i).next = some call.critical := by
    unfold SlotCaller.next
    rw [hi, hcall]
    rfl
  have hexec := SlotCall.execute_critical call a.shared (a.locals i)
  unfold Serial.step
  rw [hnext]
  dsimp only
  rw [Function.update_self]
  exact ⟨hexec.1, hexec.2.1, hexec.2.2.trans hcall⟩

/-- A call of the slot map has one section. -/
theorem slotStep_last (a : Serial ι SlotMap SlotCaller) (i : ι) :
    ((a.step SlotCaller.next i).locals i).next = none := by
  cases hi : (a.locals i).answer with
  | some answer =>
    have hsome : (a.locals i).answer.isSome = true := by rw [hi]; rfl
    rw [slotStep_answered hsome, SlotCaller.next, if_pos hsome]
  | none =>
    have hanswer := (slotStep_eq rfl hi).2.1
    rw [SlotCaller.next, hanswer]
    rfl

/-- A call that has not come to its section has no answer. -/
theorem slotAnswers_of_not_mem {order : List ι} (h : i ∉ order) (s : SlotMap) :
    slotAnswers calls order s i = none := by
  induction order generalizing s with
  | nil => rfl
  | cons j order ih =>
    rw [List.mem_cons, not_or] at h
    rw [slotAnswers, Function.update_of_ne h.1]
    exact ih h.2 _

/-- Calls that are made one after the other, each once. -/
theorem slotRun_eq (hcalls : ∀ i, (a.locals i).call = calls i) {order : List ι}
    (hnodup : order.Nodup) (hnone : ∀ i ∈ order, (a.locals i).answer = none) :
    (a.run SlotCaller.next order).shared = slotMapAfter calls order a.shared ∧
      ∀ i, ((a.run SlotCaller.next order).locals i).answer =
        if i ∈ order then slotAnswers calls order a.shared i else (a.locals i).answer := by
  induction order generalizing a with
  | nil => exact ⟨rfl, fun i => rfl⟩
  | cons j order ih =>
    rw [List.nodup_cons] at hnodup
    obtain ⟨hshared, hanswer, hcall⟩ := slotStep_eq (hcalls j) (hnone j List.mem_cons_self)
    have hcalls' : ∀ i, ((a.step SlotCaller.next j).locals i).call = calls i := by
      intro i
      by_cases hij : i = j
      · rw [hij]
        exact hcall
      · rw [Serial.locals_step_of_ne _ a hij]
        exact hcalls i
    have hnone' : ∀ i ∈ order, ((a.step SlotCaller.next j).locals i).answer = none := by
      intro i hi
      have hij : i ≠ j := fun h => hnodup.1 (h ▸ hi)
      rw [Serial.locals_step_of_ne _ a hij]
      exact hnone i (List.mem_cons_of_mem _ hi)
    obtain ⟨hmap, hanswers⟩ := ih hcalls' hnodup.2 hnone'
    rw [hshared] at hmap hanswers
    refine ⟨hmap, fun i => (hanswers i).trans ?_⟩
    by_cases hij : i = j
    · subst hij
      rw [if_neg hnodup.1, if_pos List.mem_cons_self, slotAnswers, Function.update_self, hanswer]
    · rw [slotAnswers, Function.update_of_ne hij, Serial.locals_step_of_ne _ a hij]
      simp only [List.mem_cons, hij, false_or]

variable [Fintype ι] (calls)

/-- However goroutines that use a slot map are scheduled, their calls are answered as if they had
been made one after the other, in an order that only grows at its end: a call that has returned
comes before every call that has not. -/
theorem slotMap_linearizable (s : SlotMap) (sched sched' : List ι) :
    let start := (slotCallers calls s).start
    let order := Threads.ends SlotCaller.next sched start
    let now := start.run SlotCaller.next sched
    order.Nodup ∧ order <+: Threads.ends SlotCaller.next (sched ++ sched') start ∧
      (∀ i, SlotCaller.returned (now.thread i) = slotAnswers calls order s i) ∧
      ((∀ i, (now.thread i).holds ≠ some .write) → now.shared = slotMapAfter calls order s) := by
  intro start order now
  have hstart : start.Follows SlotCaller.next (slotCallers calls s) := Threads.Follows.start _ _
  have hnow := hstart.run sched
  obtain ⟨hnodup, -⟩ := hstart.nodup_ends slotStep_last sched
  obtain ⟨hmap, hanswers⟩ :=
    slotRun_eq (a := slotCallers calls s) (fun _ => rfl) hnodup fun _ _ => rfl
  have hanswers' : ∀ i, (((slotCallers calls s).run SlotCaller.next order).locals i).answer =
      slotAnswers calls order s i := by
    intro i
    refine (hanswers i).trans ?_
    split_ifs with hi
    · rfl
    · exact (slotAnswers_of_not_mem hi s).symm
  refine ⟨hnodup, ⟨_, (Threads.ends_append _ sched sched' start).symm⟩, fun i => ?_,
    fun hfree => ?_⟩
  · have hreached := hnow.reached i
    rw [← hanswers' i]
    cases hth : now.thread i with
    | outside g =>
      rw [show (start.run SlotCaller.next sched).thread i = .outside g from hth] at hreached
      rw [show ((slotCallers calls s).run SlotCaller.next order).locals i = g from hreached]
      rfl
    | inside sec rest g =>
      -- The call has not returned, so its section is still to come in the serial run.
      rw [show (start.run SlotCaller.next sched).thread i = .inside sec rest g from hth] at hreached
      have hnext : (((slotCallers calls s).run SlotCaller.next order).locals i).next = some sec :=
        hreached.1
      unfold SlotCaller.next at hnext
      split_ifs at hnext with hsome
      exact (Option.not_isSome_iff_eq_none.mp hsome).symm
  · exact (hnow.shared hfree).trans hmap

end Slots

/-! ## The clients of the proxy -/

section Clients

variable {ι : Type} [DecidableEq ι] {calls : ι → ClientCall} {a : Serial ι Clients ClientCaller}

/-- The map loses nothing: `Stop` closes the clients and leaves them in it. -/
structure Clients.Grows (s s' : Clients) : Prop where
  clients : ∀ addr id, s.clients.get? addr = some id → s'.clients.get? addr = some id
  created : s.created <+: s'.created
  closed : s.closed ⊆ s'.closed

theorem Clients.Grows.refl (s : Clients) : s.Grows s :=
  ⟨fun _ _ h => h, List.prefix_rfl, List.Subset.refl _⟩

theorem Clients.Grows.trans {s s' s'' : Clients} (h : s.Grows s') (h' : s'.Grows s'') :
    s.Grows s'' :=
  ⟨fun addr id hid => h'.clients addr id (h.clients addr id hid), h.created.trans h'.created,
    List.Subset.trans h.closed h'.closed⟩

/-- What a section of the goroutine `g` can do to the clients. -/
inductive ClientSection (s : Clients) (g : ClientCaller) : Clients → ClientCaller → Prop where
  | found {addr id} (hcall : g.call = .getClient addr) (hid : s.clients.get? addr = some id) :
    ClientSection s g s { g with client := some id, finished := true }
  | missed {addr} (hcall : g.call = .getClient addr) (hnone : s.clients.get? addr = none) :
    ClientSection s g s { g with missed := true }
  | made {addr} (hcall : g.call = .getClient addr) (hnone : s.clients.get? addr = none) :
    ClientSection s g
      { s with created := s.created ++ [addr], clients := s.clients.insert addr s.created.length }
      { g with client := some s.created.length, fresh := true, finished := true }
  | closed (hcall : g.call = .stop) :
    ClientSection s g { s with closed := s.closed ++ s.clients.entries.map Prod.snd }
      { g with finished := true }

/-- Every section of a caller is one of those listed in `ClientSection`. -/
theorem clientSection_of_next {s : Clients} {g : ClientCaller} {sec : Critical Clients ClientCaller}
    (hfresh : g.fresh = false) (hnext : g.next = some sec) :
    ClientSection s g (execute sec.body (s, g)).1 (execute sec.body (s, g)).2 := by
  unfold ClientCaller.next at hnext
  by_cases hfinished : g.finished = true
  · rw [if_pos hfinished] at hnext
    cases hnext
  rw [if_neg hfinished] at hnext
  cases hcall : g.call with
  | stop =>
    rw [hcall] at hnext
    cases hnext
    exact .closed hcall
  | getClient addr =>
    rw [hcall] at hnext
    dsimp only at hnext
    cases hid : s.clients.get? addr with
    | none =>
      split_ifs at hnext with hmissed
      · cases hnext
        have hexec := ClientSection.made (s := s) hcall hid
        simpa [execute, makeClient, hid] using hexec
      · cases hnext
        have hexec := ClientSection.missed (s := s) hcall hid
        simpa [execute, lookUp, hid] using hexec
    | some id =>
      have hexec := ClientSection.found (s := s) hcall hid
      split_ifs at hnext with hmissed
      · cases hnext
        simpa [execute, makeClient, hid, hfresh] using hexec
      · cases hnext
        simpa [execute, lookUp, hid] using hexec

namespace ClientSection

variable {s s' : Clients} {g g' : ClientCaller}

theorem call (h : ClientSection s g s' g') : g'.call = g.call := by
  cases h <;> rfl

/-- No section takes a client out of the map, or forgets one that was made or closed. -/
theorem grows (h : ClientSection s g s' g') : s.Grows s' := by
  cases h with
  | found | missed => exact .refl s
  | @made addr' hcall hnone =>
    refine ⟨fun addr id hid => ?_, List.prefix_append _ _, List.Subset.refl _⟩
    have hne : addr' ≠ addr := by
      rintro rfl
      rw [hnone] at hid
      cases hid
    exact (OrdMap.get?_insert_of_ne _ _ hne).trans hid
  | closed hcall => exact ⟨fun _ _ hid => hid, List.prefix_rfl, List.subset_append_left _ _⟩

/-- A `getClient` that goes on after its first section has made no client yet. -/
theorem pending (h : ClientSection s g s' g') (hfin : g'.finished = false)
    (hfresh : g.fresh = false) :
    g'.fresh = false := by
  cases h with
  | missed => exact hfresh
  | found | made | closed => cases hfin

/-- When `getClient` is through it has the client that is in the map. -/
theorem returned (h : ClientSection s g s' g') {addr : Bytes} (hcall : g.call = .getClient addr)
    (hbefore : g.finished = false) (hafter : g'.finished = true) :
    ∃ id, g'.client = some id ∧ s'.clients.get? addr = some id := by
  cases h with
  | found hcall' hid =>
    cases hcall.symm.trans hcall'
    exact ⟨_, rfl, hid⟩
  | missed => exact absurd (hbefore.symm.trans hafter) Bool.false_ne_true
  | made hcall' hnone =>
    cases hcall.symm.trans hcall'
    exact ⟨_, rfl, OrdMap.get?_insert_self _ _ _⟩
  | closed hcall' => cases hcall.symm.trans hcall'

/-- `Stop` closes all clients of the map. -/
theorem closed_of_stop (h : ClientSection s g s' g') (hcall : g.call = .stop) :
    s'.closed = s.closed ++ s.clients.entries.map Prod.snd := by
  cases h with
  | found hcall' | missed hcall' | made hcall' => cases hcall.symm.trans hcall'
  | closed => rfl

/-- Nothing but `Stop` closes a client. -/
theorem closed_cases (h : ClientSection s g s' g') : s'.closed = s.closed ∨
    (g.call = .stop ∧ s'.closed = s.closed ++ s.clients.entries.map Prod.snd) := by
  cases h with
  | found | missed | made => exact .inl rfl
  | closed hcall => exact .inr ⟨hcall, rfl⟩

/-- Sections keep the map and the clients that were made in step: an address has the client that was
made for it. -/
theorem registered (h : ClientSection s g s' g')
    (hreg : ∀ addr id, s.clients.get? addr = some id ↔ s.created[id]? = some addr) (addr : Bytes)
    (id : Nat) :
    s'.clients.get? addr = some id ↔ s'.created[id]? = some addr := by
  cases h with
  | found | missed | closed => exact hreg addr id
  | @made addr' hcall hnone =>
    dsimp only
    by_cases haddr : addr = addr'
    · subst haddr
      have hold : s.created[id]? ≠ some addr := by
        intro hid
        rw [← hreg, hnone] at hid
        cases hid
      rw [OrdMap.get?_insert_self, Option.some_inj, List.getElem?_append]
      split_ifs with hlt
      · exact ⟨fun heq => absurd heq.symm (Nat.ne_of_lt hlt), fun hid => absurd hid hold⟩
      · rw [List.getElem?_singleton]
        split_ifs with hzero
        · exact ⟨fun _ => rfl, fun _ => by omega⟩
        · exact ⟨fun heq => absurd (by omega) hzero, nofun⟩
    · rw [OrdMap.get?_insert_of_ne _ _ (Ne.symm haddr), hreg, List.getElem?_append]
      split_ifs with hlt
      · exact Iff.rfl
      · rw [List.getElem?_eq_none (Nat.le_of_not_lt hlt), List.getElem?_singleton]
        split_ifs
        · exact ⟨nofun, fun heq => absurd (Option.some.inj heq).symm haddr⟩
        · exact ⟨nofun, nofun⟩

end ClientSection

/-- Between the sections there is one client for an address, the one that the map has for it, and
every `getClient` that is through has returned that client. -/
structure OneEach (calls : ι → ClientCall) (a : Serial ι Clients ClientCaller) : Prop where
  call_eq : ∀ i, (a.locals i).call = calls i
  registered : ∀ addr id, a.shared.clients.get? addr = some id ↔ a.shared.created[id]? = some addr
  pending : ∀ i, (a.locals i).finished = false → (a.locals i).fresh = false
  returned : ∀ i addr, calls i = .getClient addr → (a.locals i).finished = true →
    ∃ id, (a.locals i).client = some id ∧ a.shared.clients.get? addr = some id
  closed : ∀ id ∈ a.shared.closed, id < a.shared.created.length

namespace OneEach

/-- A step of the serial run is a whole section, or nothing. -/
theorem step_cases (h : OneEach calls a) (i : ι) :
    ((a.locals i).finished = true ∧ a.step ClientCaller.next i = a) ∨
      ((a.locals i).finished = false ∧ ClientSection a.shared (a.locals i)
        (a.step ClientCaller.next i).shared ((a.step ClientCaller.next i).locals i)) := by
  unfold Serial.step
  cases hfinished : (a.locals i).finished with
  | true =>
    left
    rw [ClientCaller.next, if_pos hfinished]
    exact ⟨rfl, rfl⟩
  | false =>
    right
    have hsome : ∃ sec, (a.locals i).next = some sec := by
      unfold ClientCaller.next
      rw [hfinished]
      cases (a.locals i).call <;> exact ⟨_, rfl⟩
    obtain ⟨sec, hsec⟩ := hsome
    rw [hsec]
    dsimp only
    rw [Function.update_self]
    exact ⟨rfl, clientSection_of_next (h.pending i hfinished) hsec⟩

omit [DecidableEq ι] in
/-- At the start no call has done anything. -/
theorem start (calls : ι → ClientCall) : OneEach calls (clientCallers calls) where
  call_eq _ := rfl
  registered addr id := by simp [clientCallers]
  pending _ _ := rfl
  returned _ _ _ := nofun
  closed _ := nofun

/-- A section keeps the invariant. -/
theorem step (h : OneEach calls a) (i : ι) : OneEach calls (a.step ClientCaller.next i) := by
  rcases h.step_cases i with ⟨-, heq⟩ | ⟨hfinished, hsec⟩
  · rw [heq]
    exact h
  have hother : ∀ j, j ≠ i → (a.step ClientCaller.next i).locals j = a.locals j := fun j hji =>
    Serial.locals_step_of_ne _ a hji
  generalize a.step ClientCaller.next i = a' at hsec hother
  refine ⟨fun j => ?_, hsec.registered h.registered, fun j => ?_, fun j addr hj => ?_,
    fun id hid => ?_⟩
  · by_cases hji : j = i
    · subst hji
      exact hsec.call.trans (h.call_eq j)
    · rw [hother j hji]
      exact h.call_eq j
  · by_cases hji : j = i
    · subst hji
      exact fun hfin => hsec.pending hfin (h.pending j hfinished)
    · rw [hother j hji]
      exact h.pending j
  · by_cases hji : j = i
    · subst hji
      exact fun hfin => hsec.returned ((h.call_eq j).trans hj) hfinished hfin
    · rw [hother j hji]
      intro hfin
      obtain ⟨id, hid, hmem⟩ := h.returned j addr hj hfin
      exact ⟨id, hid, hsec.grows.clients addr id hmem⟩
  · rcases hsec.closed_cases with heq | ⟨-, heq⟩
    · rw [heq] at hid
      exact Nat.lt_of_lt_of_le (h.closed id hid) hsec.grows.created.length_le
    · rw [heq] at hid
      refine Nat.lt_of_lt_of_le ?_ hsec.grows.created.length_le
      rcases List.mem_append.mp hid with hold | hnew
      · exact h.closed id hold
      · obtain ⟨⟨addr, id'⟩, hmem, rfl⟩ := List.mem_map.mp hnew
        have hid := (h.registered addr id').mp (OrdMap.get?_eq_some_iff.mpr hmem)
        exact (List.getElem?_eq_some_iff.mp hid).1

theorem run (h : OneEach calls a) (order : List ι) :
    OneEach calls (a.run ClientCaller.next order) :=
  Serial.run_induct _ (fun _ i h => h.step i) h order

omit [DecidableEq ι] in
/-- No two clients were made for one address. -/
theorem nodup_created (h : OneEach calls a) : a.shared.created.Nodup := by
  rw [List.nodup_iff_getElem?_ne_getElem?]
  intro i j hij hj heq
  have hi := (h.registered _ i).mpr (heq.trans (List.getElem?_eq_getElem hj))
  have hj' := (h.registered _ j).mpr (List.getElem?_eq_getElem hj)
  rw [hi] at hj'
  exact absurd (Option.some.inj hj') (Nat.ne_of_lt hij)

theorem grows_step (h : OneEach calls a) (i : ι) :
    a.shared.Grows (a.step ClientCaller.next i).shared := by
  rcases h.step_cases i with ⟨-, heq⟩ | ⟨-, hsec⟩
  · rw [heq]
    exact .refl _
  · exact hsec.grows

theorem grows_run (h : OneEach calls a) (order : List ι) :
    a.shared.Grows (a.run ClientCaller.next order).shared := by
  induction order generalizing a with
  | nil => exact .refl _
  | cons i order ih => exact (h.grows_step i).trans (ih (h.step i))

/-- A `Stop` whose section is still to come closes every client that is in the map. -/
theorem closed_of_stop (h : OneEach calls a) {j : ι} (hj : calls j = .stop)
    (hbefore : (a.locals j).finished = false) {addr : Bytes} {id : Nat}
    (hid : a.shared.clients.get? addr = some id) {order : List ι}
    (hafter : ((a.run ClientCaller.next order).locals j).finished = true) :
    id ∈ (a.run ClientCaller.next order).shared.closed := by
  induction order generalizing a with
  | nil =>
    rw [show a.run ClientCaller.next [] = a from rfl, hbefore] at hafter
    cases hafter
  | cons i order ih =>
    by_cases hij : j = i
    · subst hij
      refine ((h.step j).grows_run order).closed ?_
      rcases h.step_cases j with ⟨hfin, -⟩ | ⟨-, hsec⟩
      · rw [hbefore] at hfin
        cases hfin
      · rw [hsec.closed_of_stop ((h.call_eq j).trans hj)]
        exact List.mem_append_right
          _ (List.mem_map.mpr ⟨(addr, id), OrdMap.get?_eq_some_iff.mp hid, rfl⟩)
    · have hlocals := Serial.locals_step_of_ne ClientCaller.next a hij
      refine ih (h.step i) ?_ ((h.grows_step i).clients addr id hid) hafter
      rw [hlocals]
      exact hbefore

/-- Without a `Stop` to come nothing is closed any more. -/
theorem closed_run_eq (h : OneEach calls a)
    (hstopped : ∀ j, calls j = .stop → (a.locals j).finished = true) (order : List ι) :
    (a.run ClientCaller.next order).shared.closed = a.shared.closed ∧
      ∀ j, calls j = .stop → ((a.run ClientCaller.next order).locals j).finished = true := by
  induction order generalizing a with
  | nil => exact ⟨rfl, hstopped⟩
  | cons i order ih =>
    rcases h.step_cases i with ⟨-, heq⟩ | ⟨hfinished, hsec⟩
    · have hrun := ih h hstopped
      rw [show a.run ClientCaller.next (i :: order) =
        (a.step ClientCaller.next i).run ClientCaller.next order
        from rfl, heq]
      exact hrun
    · have hi : calls i ≠ .stop := by
        intro hi
        rw [hstopped i hi] at hfinished
        cases hfinished
      have hclosed : (a.step ClientCaller.next i).shared.closed = a.shared.closed := by
        rcases hsec.closed_cases with heq | ⟨hcall, -⟩
        · exact heq
        · exact absurd ((h.call_eq i).symm.trans hcall) hi
      have hstopped' : ∀ j, calls j = .stop →
          ((a.step ClientCaller.next i).locals j).finished = true := by
        intro j hj
        have hji : j ≠ i := fun hji => hi (hji ▸ hj)
        rw [Serial.locals_step_of_ne _ a hji]
        exact hstopped j hj
      obtain ⟨hrun, hrest⟩ := ih (h.step i) hstopped'
      exact ⟨hrun.trans hclosed, hrest⟩

end OneEach

/-- What can be seen of a section in progress. -/
structure MidSection (s : Clients) (g : ClientCaller) (s' : Clients) : Prop where
  created : s'.created = s.created ∨
    ∃ addr, s.clients.get? addr = none ∧ s'.created = s.created ++ [addr]
  closed_subset : s.closed ⊆ s'.closed
  closed : g.call = .stop ∨ s'.closed = s.closed

theorem MidSection.refl (s : Clients) (g : ClientCaller) : MidSection s g s :=
  ⟨.inl rfl, List.Subset.refl _, .inr rfl⟩

/-- In the middle of the second section of `getClient` a client may have been made that is not in
the map yet. -/
theorem midSection_makeClient (addr : Bytes) (s : Clients) (g : ClientCaller)
    (hfresh : g.fresh = false) {done rest : List (Stmt Clients ClientCaller)}
    (hbody : (makeClient addr).body = done ++ rest) :
    MidSection s g (execute done (s, g)).1 := by
  have hmade : s.clients.get? addr = none → ∀ clients,
      MidSection s g ⟨clients, s.created ++ [addr], s.closed⟩ :=
    fun hnone _ => ⟨.inr ⟨addr, hnone, rfl⟩, List.Subset.refl _, .inr rfl⟩
  -- Zero to three statements have been executed.
  rcases done with _ | ⟨stmt₁, _ | ⟨stmt₂, _ | ⟨stmt₃, done⟩⟩⟩
  · exact .refl s g
  · obtain ⟨rfl, -⟩ := List.cons.inj hbody
    exact .refl s g
  · obtain ⟨rfl, hbody₂⟩ := List.cons.inj hbody
    obtain ⟨rfl, -⟩ := List.cons.inj hbody₂
    cases hid : s.clients.get? addr with
    | some id => simpa [execute, hid] using MidSection.refl s g
    | none => simpa [execute, hid] using hmade hid s.clients
  · obtain ⟨rfl, hbody₂⟩ := List.cons.inj hbody
    obtain ⟨rfl, hbody₃⟩ := List.cons.inj hbody₂
    obtain ⟨rfl, hdone⟩ := List.cons.inj hbody₃
    obtain ⟨rfl, -⟩ := List.append_eq_nil_iff.mp hdone.symm
    cases hid : s.clients.get? addr with
    | some id => simpa [execute, hid, hfresh] using MidSection.refl s g
    | none => simpa [execute, hid] using hmade hid (s.clients.insert addr s.created.length)

/-- So of any section: at most one client more, and clients closed only by `Stop`. -/
theorem midSection_of_next {s : Clients} {g : ClientCaller} (hfresh : g.fresh = false)
    {sec : Critical Clients ClientCaller} (hnext : g.next = some sec)
    {done rest : List (Stmt Clients ClientCaller)} (hbody : sec.body = done ++ rest) :
    MidSection s g (execute done (s, g)).1 := by
  cases hmode : sec.mode with
  | read =>
    have hsub : ∀ stmt ∈ done, stmt ∈ sec.body := by
      intro stmt hstmt
      rw [hbody]
      exact List.mem_append_left _ hstmt
    rw [execute_reads hmode hsub]
    exact .refl s g
  | write =>
    unfold ClientCaller.next at hnext
    by_cases hfinished : g.finished = true
    · rw [if_pos hfinished] at hnext
      cases hnext
    rw [if_neg hfinished] at hnext
    cases hcall : g.call with
    | getClient addr =>
      rw [hcall] at hnext
      dsimp only at hnext
      split_ifs at hnext with hmissed
      · cases hnext
        exact midSection_makeClient addr s g hfresh hbody
      · cases hnext
        cases hmode
    | stop =>
      rw [hcall] at hnext
      cases hnext
      rcases done with _ | ⟨stmt, done⟩
      · exact .refl s g
      · obtain ⟨rfl, hdone⟩ := List.cons.inj hbody
        obtain ⟨rfl, -⟩ := List.append_eq_nil_iff.mp hdone.symm
        exact ⟨.inl rfl, List.subset_append_left _ _, .inl hcall⟩

section Schedules

variable [Fintype ι] {c : Threads ι Clients ClientCaller}

omit [DecidableEq ι] [Fintype ι] in
/-- The clients, while sections may be in progress. -/
theorem OneEach.midSection (h : OneEach calls a) (hc : c.Follows ClientCaller.next a) :
    c.shared = a.shared ∨ ∃ i, (a.locals i).finished = false ∧
      MidSection a.shared (a.locals i) c.shared := by
  by_cases hwrite : ∃ i, (c.thread i).holds = some .write
  · obtain ⟨i, hi⟩ := hwrite
    have hreached := hc.reached i
    right
    cases hth : c.thread i with
    | outside g =>
      rw [hth] at hi
      cases hi
    | inside sec rest g =>
      rw [hth] at hreached
      obtain ⟨hnext, done, hbody, hdone⟩ := hreached
      have hfinished : (a.locals i).finished = false := by
        rw [← Bool.not_eq_true]
        intro hfinished
        rw [ClientCaller.next, if_pos hfinished] at hnext
        cases hnext
      have hmid := midSection_of_next (s := a.shared) (h.pending i hfinished) hnext hbody
      rw [hdone] at hmid
      exact ⟨i, hfinished, hmid⟩
  · left
    exact hc.shared fun i hi => hwrite ⟨i, hi⟩

omit [DecidableEq ι] [Fintype ι] in
/-- A thread that is through is in the threads as it is in the serial run. -/
theorem OneEach.locals_of_through (hc : c.Follows ClientCaller.next a) {i : ι}
    (hi : ClientCaller.through (c.thread i) = true) :
    (a.locals i).finished = true ∧ ClientCaller.returned (c.thread i) = (a.locals i).client := by
  have hreached := hc.reached i
  cases hth : c.thread i with
  | outside g =>
    rw [hth] at hreached hi
    have hg : a.locals i = g := hreached
    have hfin : g.finished = true := hi
    rw [hg]
    exact ⟨hfin, if_pos hfin⟩
  | inside sec rest g =>
    rw [hth] at hi
    cases hi

omit [DecidableEq ι] [Fintype ι] in
theorem OneEach.locals_of_idle (hc : c.Follows ClientCaller.next a) {i : ι}
    (hi : ClientCaller.idle (c.thread i) = true) : (a.locals i).finished = false := by
  have hreached := hc.reached i
  cases hth : c.thread i with
  | outside g =>
    rw [hth] at hreached hi
    have hg : a.locals i = g := hreached
    rw [hg]
    exact (Bool.not_eq_true' _).mp (Bool.and_eq_true_iff.mp hi).2
  | inside sec rest g =>
    rw [hth] at hi
    cases hi

theorem ClientCaller.through_of_returned {th : Thread Clients ClientCaller} {id : Nat}
    (h : ClientCaller.returned th = some id) : ClientCaller.through th = true := by
  cases th with
  | outside g =>
    have hg : (if g.finished = true then g.client else none) = some id := h
    split_ifs at hg with hfin
    exact hfin
  | inside sec rest g => cases h

omit [DecidableEq ι] [Fintype ι] in
/-- A `getClient` that has returned has the client that the serial run has in its map. -/
theorem OneEach.get?_of_returned (h : OneEach calls a) (hc : c.Follows ClientCaller.next a) {i : ι}
    {addr : Bytes} (hi : calls i = .getClient addr) {id : Nat}
    (hid : ClientCaller.returned (c.thread i) = some id) :
    a.shared.clients.get? addr = some id := by
  obtain ⟨hfin, hret⟩ := OneEach.locals_of_through hc (ClientCaller.through_of_returned hid)
  obtain ⟨id', hid', hget⟩ := h.returned i addr hi hfin
  rw [hid, hid'] at hret
  rw [hget, hret]

omit [DecidableEq ι] [Fintype ι] in
/-- A section in progress only adds to the clients that were made. -/
theorem OneEach.created_prefix (h : OneEach calls a) (hc : c.Follows ClientCaller.next a) :
    a.shared.created <+: c.shared.created := by
  rcases h.midSection hc with heq | ⟨i, -, hmid⟩
  · rw [heq]
  · rcases hmid.created with heq | ⟨addr, -, heq⟩
    · rw [heq]
    · rw [heq]
      exact List.prefix_append _ _

/-- However `getClient` and `Stop` are scheduled, no two clients are made for one address: a
`getClient` that has returned has the only client that was ever made for its address, and so all of
them share it. -/
theorem getClient_shares (calls : ι → ClientCall) (sched : List ι) :
    let now := (clientCallers calls).start.run ClientCaller.next sched
    now.shared.created.Nodup ∧
      ∀ i addr id, calls i = .getClient addr → ClientCaller.returned (now.thread i) = some id →
        now.shared.created[id]? = some addr ∧
          ∀ j id', calls j = .getClient addr → ClientCaller.returned (now.thread j) = some id' →
            id' = id := by
  intro now
  have hnow := (Threads.Follows.start ClientCaller.next (clientCallers calls)).run sched
  have hinv :=
    (OneEach.start calls).run (Threads.ends ClientCaller.next sched (clientCallers calls).start)
  refine ⟨?_, fun i addr id hi hid => ⟨?_, fun j id' hj hid' => ?_⟩⟩
  · rcases hinv.midSection hnow with heq | ⟨i, -, hmid⟩
    · exact heq ▸ hinv.nodup_created
    · rcases hmid.created with heq | ⟨addr, hnone, heq⟩
      · exact heq ▸ hinv.nodup_created
      · -- The client has been made and is not yet in the map.
        rw [show now.shared.created = _ from heq]
        refine List.Nodup.append hinv.nodup_created (List.nodup_singleton _) ?_
        rw [List.disjoint_singleton]
        intro hmem
        obtain ⟨id, hid⟩ := List.mem_iff_getElem?.mp hmem
        rw [← hinv.registered, hnone] at hid
        cases hid
  · have hget := (hinv.registered addr id).mp (hinv.get?_of_returned hnow hi hid)
    obtain ⟨rest, hrest⟩ := hinv.created_prefix hnow
    rw [show now.shared.created = _ from hrest.symm]
    rw [List.getElem?_append_left (List.getElem?_eq_some_iff.mp hget).1]
    exact hget
  · have hget := hinv.get?_of_returned hnow hi hid
    have hget' := hinv.get?_of_returned hnow hj hid'
    rw [hget] at hget'
    exact (Option.some.inj hget').symm

/-- Two goroutines that both miss the address under the read lock end up with one client. -/
theorem getClient_shares_two :
    let calls : Fin 2 → ClientCall := fun _ => .getClient [65]
    let now := (clientCallers calls).start.run ClientCaller.next
      [0, 1, 0, 1, 0, 1, 1, 1, 1, 1, 1, 0, 0, 0, 0, 0]
    ClientCaller.returned (now.thread 0) = some 0 ∧ ClientCaller.returned (now.thread 1) = some 0 ∧
      now.shared.created[0]? = some [65] := by
  have h := getClient_shares (fun _ : Fin 2 => .getClient [65])
    [0, 1, 0, 1, 0, 1, 1, 1, 1, 1, 1, 0, 0, 0, 0, 0]
  have hzero : ClientCaller.returned (((clientCallers fun _ : Fin 2 => .getClient [65]).start.run
    ClientCaller.next [0, 1, 0, 1, 0, 1, 1, 1, 1, 1, 1, 0, 0, 0, 0, 0]).thread 0) =
      some 0 := by decide +kernel
  exact ⟨hzero, by decide +kernel, (h.2 0 [65] 0 rfl hzero).1⟩

/-- `Stop` closes the clients that `getClient` has returned before it, and leaves the map as it is:
a client that is made after the last `Stop` is never closed. -/
theorem stop_closes (calls : ι → ClientCall) (sched sched' : List ι) :
    let before := (clientCallers calls).start.run ClientCaller.next sched
    let after := before.run ClientCaller.next sched'
    (∀ i j addr id, calls i = .getClient addr → calls j = .stop →
      ClientCaller.returned (before.thread i) = some id →
        ClientCaller.idle (before.thread j) = true →
      ClientCaller.through (after.thread j) = true → id ∈ after.shared.closed) ∧
    ((∀ j, calls j = .stop → ClientCaller.through (before.thread j) = true) →
      ∀ id, before.shared.created.length ≤ id → id ∉ after.shared.closed) := by
  intro before after
  have hbefore := (Threads.Follows.start ClientCaller.next (clientCallers calls)).run sched
  have hinv :=
    (OneEach.start calls).run (Threads.ends ClientCaller.next sched (clientCallers calls).start)
  have hafter := hbefore.run sched'
  have hinv' := hinv.run (Threads.ends ClientCaller.next sched' before)
  refine ⟨fun i j addr id hi hj hid hidle hthrough => ?_, fun hstopped id hid hclosed => ?_⟩
  · have hget := hinv.get?_of_returned hbefore hi hid
    have hfin := (OneEach.locals_of_through hafter hthrough).1
    have hmem := hinv.closed_of_stop hj (OneEach.locals_of_idle hbefore hidle) hget hfin
    rcases hinv'.midSection hafter with heq | ⟨k, -, hmid⟩
    · exact heq ▸ hmem
    · exact hmid.closed_subset hmem
  · have hserial :=
      hinv.closed_run_eq (fun j hj => (OneEach.locals_of_through hbefore (hstopped j hj)).1)
      (Threads.ends ClientCaller.next sched' before)
    have hlt : id < before.shared.created.length := by
      refine Nat.lt_of_lt_of_le (hinv.closed id ?_) (hinv.created_prefix hbefore).length_le
      rw [← hserial.1]
      rcases hinv'.midSection hafter with heq | ⟨k, hk, hmid⟩
      · exact heq ▸ hclosed
      · rcases hmid.closed with hcall | heq
        · have hfin := hserial.2 k ((hinv'.call_eq k).symm.trans hcall)
          rw [hk] at hfin
          cases hfin
        · exact heq ▸ hclosed
    exact absurd hlt (Nat.not_lt.mpr hid)

/-- A client made before `Stop` is closed by it, and one made after it is not. -/
theorem stop_closes_three :
    let calls : Fin 3 → ClientCall := [ClientCall.getClient [65], .stop, .getClient [66]].get
    let start := (clientCallers calls).start
    0 ∈ ((start.run ClientCaller.next [0, 0, 0, 0, 0, 0, 0, 0]).run ClientCaller.next
      [1, 1, 1]).shared.closed ∧
      1 ∉ ((start.run ClientCaller.next [0, 0, 0, 0, 0, 0, 0, 0, 1, 1, 1]).run ClientCaller.next
        [2, 2, 2, 2, 2, 2, 2, 2]).shared.closed := by
  refine ⟨(stop_closes _ _ _).1 0 1 [65] 0 rfl rfl ?_ ?_ ?_, (stop_closes _ _ _).2 ?_ 1 ?_⟩
  · decide +kernel
  · decide +kernel
  · decide +kernel
  · decide +kernel
  · decide +kernel

end Schedules

end Clients

end Badis
