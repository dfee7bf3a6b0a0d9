import OsProj.SynchReadersWriter

/-! Every step of the readers-writers lock keeps its invariant, so exclusion, exact counters and
the absence of lost wakeups hold in every run. -/
namespace OsProj.Synch.ReadersWriter

open OsProj.Total

section
variable {Tid : Type} [Fintype Tid] [DecidableEq Tid] {s s' : State Tid}

theorem Inv.takeLock (inv : Inv s) (free : s.holder = none) (here : (s.threads t).pc = .acquireLock r) :
    Inv (State.goto { s with holder := some t } t (.acquireTest r)) := by
  apply inv.shift (.acquireTest r) (Or.inl free) here <;> simp [Pc.locked,Pc.counted,Pc.opens,Pc.admits]

theorem Inv.resume (inv : Inv s) (free : s.holder = none) (here : (s.threads t).pc = .signalled r) :
    Inv (State.goto { s with holder := some t } t (.acquireUncount r)) := by
  apply inv.shift (.acquireUncount r) (Or.inl free) here <;> simp [Pc.locked,Pc.counted,Pc.opens,Pc.admits]
  exact fun writer => Or.inl writer

theorem Inv.takeRelease (inv : Inv s) (free : s.holder = none) (here : (s.threads t).pc = .releaseLock r) :
    Inv (State.goto { s with holder := some t } t (.releaseGive r)) := by
  have held := inv.holds t r (Or.inl here)
  apply inv.shift (.releaseGive r) (Or.inl free) here <;> simp [Pc.locked,Pc.counted,Pc.opens,Pc.admits]
  exact held

theorem Inv.test (inv : Inv s) (here : (s.threads t).pc = .acquireTest r) :
    Inv (s.goto t (if s.closed r then .acquireCount r else .acquireEnter r)) := by
  have mine := inv.mine here rfl
  split
  · rename_i closed
    apply inv.shift (o := s.holder) (.acquireCount r) (Or.inr mine) here <;>
      simp [Pc.locked,Pc.counted,Pc.opens,Pc.admits,mine]
    · exact closed
    · exact fun writer => Or.inl writer
    · exact fun writer => Or.inl writer
  · rename_i opened
    apply inv.shift (o := s.holder) (.acquireEnter r) (Or.inr mine) here <;>
      simp [Pc.locked,Pc.counted,Pc.opens,Pc.admits,mine]
    · exact opened
    · exact fun writer => Or.inl writer
    · exact fun writer => Or.inl writer

/-- The end of either function. -/
theorem Inv.unlock (inv : Inv s) (here : (s.threads t).pc = .acquireUnlock ∨ (s.threads t).pc = .releaseUnlock) :
    Inv (State.goto { s with holder := none } t .outside) := by
  rcases here with here | here <;>
    apply inv.shift .outside (Or.inr (inv.mine here rfl)) here <;> simp [Pc.locked,Pc.counted,Pc.opens,Pc.admits]

theorem Inv.countReader (inv : Inv s) (here : (s.threads t).pc = .acquireCount true) :
    Inv (State.goto { s with WR := s.WR + 1 } t (.acquireWait true)) := by
  have mine := inv.mine here rfl
  have closed := inv.closed t true (Or.inl here)
  obtain ⟨read,write⟩ := inv.queues_same (q := .acquireWait true) here (by simp)
  refine inv.change { s.threads t with pc := .acquireWait true } (Or.inr mine) rfl ?_ rfl rfl ?_ ?_ read write ?_ ?_
    inv.exclusive ?_ ?_ ?_
  · simp [State.goto,Pc.locked,mine]
  · simp [State.goto,counted,here,Pc.counted]
  · simp [State.goto,counted,here,Pc.counted]
  · simpa [State.goto,State.closed] using closed
  · simp
  · simp
  · exact fun _ => Or.inl closed
  · intro asleep
    simpa [State.goto,here,Pc.admits] using inv.writers_mine (Or.inr mine) asleep

theorem Inv.countWriter (inv : Inv s) (here : (s.threads t).pc = .acquireCount false) :
    Inv (State.goto { s with WW := s.WW + 1 } t (.acquireWait false)) := by
  have mine := inv.mine here rfl
  have closed := inv.closed t false (Or.inl here)
  obtain ⟨read,write⟩ := inv.queues_same (q := .acquireWait false) here (by simp)
  refine inv.change { s.threads t with pc := .acquireWait false } (Or.inr mine) rfl ?_ rfl rfl ?_ ?_ read write ?_ ?_
    inv.exclusive ?_ ?_ ?_
  · simp [State.goto,Pc.locked,mine]
  · simp [State.goto,counted,here,Pc.counted]
  · simp [State.goto,counted,here,Pc.counted]
  · simpa [State.goto,State.closed] using closed
  · simp
  · simp
  · intro _
    have := inv.nonneg
    refine Or.inl ?_
    simp only [State.goto]
    omega
  · exact fun _ => Or.inl closed

theorem Inv.uncountReader (inv : Inv s) (here : (s.threads t).pc = .acquireUncount true) :
    Inv (State.goto { s with WR := s.WR - 1 } t (.acquireTest true)) := by
  have mine := inv.mine here rfl
  obtain ⟨read,write⟩ := inv.queues_same (q := .acquireTest true) here (by simp)
  refine inv.change { s.threads t with pc := .acquireTest true } (Or.inr mine) rfl ?_ rfl rfl ?_ ?_ read write ?_ ?_
    inv.exclusive ?_ ?_ ?_
  · simp [State.goto,Pc.locked,mine]
  · simp [State.goto,counted,here,Pc.counted]
  · simp [State.goto,counted,here,Pc.counted]
  · simp
  · simp
  · simp
  · intro asleep
    simpa [State.goto,here,Pc.opens] using inv.readers_mine (Or.inr mine) asleep
  · intro asleep
    simpa [State.goto,here,Pc.admits] using inv.writers_mine (Or.inr mine) asleep

theorem Inv.uncountWriter (inv : Inv s) (here : (s.threads t).pc = .acquireUncount false) :
    Inv (State.goto { s with WW := s.WW - 1 } t (.acquireTest false)) := by
  have mine := inv.mine here rfl
  obtain ⟨read,write⟩ := inv.queues_same (q := .acquireTest false) here (by simp)
  refine inv.change { s.threads t with pc := .acquireTest false } (Or.inr mine) rfl ?_ rfl rfl ?_ ?_ read write ?_ ?_
    inv.exclusive ?_ ?_ ?_
  · simp [State.goto,Pc.locked,mine]
  · simp [State.goto,counted,here,Pc.counted]
  · simp [State.goto,counted,here,Pc.counted]
  · simp
  · simp
  · simp
  · exact fun _ => Or.inr rfl
  · exact fun _ => Or.inr (Or.inl rfl)

theorem Inv.waitReader (inv : Inv s) (here : (s.threads t).pc = .acquireWait true) :
    Inv (State.goto { s with holder := none, read := s.read ++ [t] } t (.asleep true)) := by
  have mine := inv.mine here rfl
  have closed := inv.closed t true (Or.inr here)
  have absent : t ∉ s.read := by
    rw [inv.read.2,here]
    simp
  have longer : (s.read ++ [t]).Nodup := by
    rw [List.nodup_append_comm]
    exact List.nodup_cons.mpr ⟨absent,inv.read.1⟩
  refine inv.change { s.threads t with pc := .asleep true } (Or.inr mine) rfl rfl rfl rfl ?_ ?_ ⟨longer,?_⟩ ⟨inv.write.1,?_⟩
    ?_ ?_ inv.exclusive ?_ ?_ ?_
  · simp [State.goto,counted,here,Pc.counted]
  · simp [State.goto,counted,here,Pc.counted]
  · intro u
    by_cases same : u = t <;> simp [State.goto,same,absent]
  · intro u
    have member := inv.write.2 u
    by_cases same : u = t
    · subst same
      rw [here] at member
      simp [State.goto,member]
    · simp [State.goto,same]
  · simp
  · simp
  · simp
  · exact fun _ => Or.inl closed
  · intro asleep
    simpa [State.goto,here,Pc.admits] using inv.writers_mine (Or.inr mine) asleep

theorem Inv.waitWriter (inv : Inv s) (here : (s.threads t).pc = .acquireWait false) :
    Inv (State.goto { s with holder := none, write := s.write ++ [t] } t (.asleep false)) := by
  have mine := inv.mine here rfl
  have closed := inv.closed t false (Or.inr here)
  have absent : t ∉ s.write := by
    rw [inv.write.2,here]
    simp
  have longer : (s.write ++ [t]).Nodup := by
    rw [List.nodup_append_comm]
    exact List.nodup_cons.mpr ⟨absent,inv.write.1⟩
  refine inv.change { s.threads t with pc := .asleep false } (Or.inr mine) rfl rfl rfl rfl ?_ ?_ ⟨inv.read.1,?_⟩ ⟨longer,?_⟩
    ?_ ?_ inv.exclusive ?_ ?_ ?_
  · simp [State.goto,counted,here,Pc.counted]
  · simp [State.goto,counted,here,Pc.counted]
  · intro u
    have member := inv.read.2 u
    by_cases same : u = t
    · subst same
      rw [here] at member
      simp [State.goto,member]
    · simp [State.goto,same]
  · intro u
    by_cases same : u = t <;> simp [State.goto,same,absent]
  · simp
  · simp
  · simp
  · intro asleep
    simpa [State.goto,here,Pc.opens] using inv.readers_mine (Or.inr mine) asleep
  · exact fun _ => Or.inl closed

theorem Inv.enterReader (inv : Inv s) (here : (s.threads t).pc = .acquireEnter true) :
    Inv { s with AR := s.AR + 1,
                 threads := Function.update s.threads t
                   { s.threads t with pc := .acquireUnlock, reading := (s.threads t).reading + 1 } } := by
  have mine := inv.mine here rfl
  have opened := inv.entered t true here
  have bounds := inv.nonneg
  obtain ⟨read,write⟩ := inv.queues_same (q := .acquireUnlock) here (by simp)
  simp only [State.closed,not_lt,gt_iff_lt] at opened
  refine inv.change _ (Or.inr mine) rfl ?_ ?_ rfl ?_ ?_ read write ?_ ?_ ?_ ?_ ?_ ?_
  · simp [Pc.locked,mine]
  · simp only
    omega
  · simp [counted,here,Pc.counted]
  · simp [counted,here,Pc.counted]
  · simp
  · simp
  · constructor
    · exact inv.exclusive.1
    · exact Or.inl (by simp only; omega)
  · simp
  · intro asleep
    simpa [State.goto,here,Pc.opens] using inv.readers_mine (Or.inr mine) asleep
  · intro _
    refine Or.inl ?_
    simp only
    omega

theorem Inv.enterWriter (inv : Inv s) (here : (s.threads t).pc = .acquireEnter false) :
    Inv { s with AW := s.AW + 1,
                 threads := Function.update s.threads t
                   { s.threads t with pc := .acquireUnlock, writing := (s.threads t).writing + 1 } } := by
  have mine := inv.mine here rfl
  have opened := inv.entered t false here
  have bounds := inv.nonneg
  obtain ⟨read,write⟩ := inv.queues_same (q := .acquireUnlock) here (by simp)
  simp only [State.closed,not_lt,gt_iff_lt] at opened
  refine inv.change _ (Or.inr mine) rfl ?_ rfl ?_ ?_ ?_ read write ?_ ?_ ?_ ?_ ?_ ?_
  · simp [Pc.locked,mine]
  · simp only
    omega
  · simp [counted,here,Pc.counted]
  · simp [counted,here,Pc.counted]
  · simp
  · simp
  · simp only
    omega
  · simp
  · intro _
    refine Or.inl ?_
    simp only
    omega
  · intro _
    refine Or.inl ?_
    simp only
    omega

theorem Inv.giveReader (inv : Inv s) (here : (s.threads t).pc = .releaseGive true) :
    Inv { s with AR := s.AR - 1,
                 threads := Function.update s.threads t
                   { s.threads t with pc := .releaseSignal true, reading := (s.threads t).reading - 1 } } := by
  have mine := inv.mine here rfl
  have held : 0 < (s.threads t).reading := inv.holds t true (Or.inr here)
  have exclusive := inv.exclusive
  obtain ⟨read,write⟩ := inv.queues_same (q := .releaseSignal true) here (by simp)
  refine inv.change _ (Or.inr mine) rfl ?_ ?_ rfl ?_ ?_ read write ?_ ?_ ?_ ?_ ?_ ?_
  · simp [Pc.locked,mine]
  · simp only
    omega
  · simp [counted,here,Pc.counted]
  · simp [counted,here,Pc.counted]
  · simp
  · simp
  · simp only
    omega
  · simp
  · intro asleep
    simpa [here,Pc.opens] using inv.readers_mine (Or.inr mine) asleep
  · exact fun _ => Or.inr (Or.inl rfl)

theorem Inv.giveWriter (inv : Inv s) (here : (s.threads t).pc = .releaseGive false) :
    Inv { s with AW := s.AW - 1,
                 threads := Function.update s.threads t
                   { s.threads t with pc := .releaseSignal false, writing := (s.threads t).writing - 1 } } := by
  have mine := inv.mine here rfl
  have held : 0 < (s.threads t).writing := inv.holds t false (Or.inr here)
  have exclusive := inv.exclusive
  obtain ⟨read,write⟩ := inv.queues_same (q := .releaseSignal false) here (by simp)
  refine inv.change _ (Or.inr mine) rfl ?_ rfl ?_ ?_ ?_ read write ?_ ?_ ?_ ?_ ?_ ?_
  · simp [Pc.locked,mine]
  · simp only
    omega
  · simp [counted,here,Pc.counted]
  · simp [counted,here,Pc.counted]
  · simp
  · simp
  · simp only
    omega
  · simp
  · exact fun _ => Or.inr rfl
  · exact fun _ => Or.inr (Or.inl rfl)

/-- A thread without the inner lock moves on, and out of the queues if it is in one. -/
theorem Inv.pass {read write : List Tid} (inv : Inv s) (here : (s.threads t).pc = p) (unlocked : p.locked = false ∧ q.locked = false)
    (same : ∀ b, q.counted b = p.counted b) (quiet : p.opens = false ∧ p.admits = false) (awake : ∀ b, q ≠ .asleep b)
    (holds : ∀ b, q = .releaseLock b ∨ q = .releaseGive b → (s.threads t).has b)
    (readers : read.Nodup ∧ ∀ u, u ∈ read ↔ u ≠ t ∧ u ∈ s.read) (writers : write.Nodup ∧ ∀ u, u ∈ write ↔ u ≠ t ∧ u ∈ s.write) :
    Inv (State.goto { s with read := read, write := write } t q) := by
  have sum (w : Thread → Nat) (equal : w { s.threads t with pc := q } = w (s.threads t)) :
      total w (Function.update s.threads t { s.threads t with pc := q }) = total w s.threads := by
    have := total_update w s.threads t { s.threads t with pc := q }
    omega
  have weight (b : Bool) : counted b { s.threads t with pc := q } = counted b (s.threads t) := by
    simp only [counted,here,same b]
  have others (u : Tid) (other : u ≠ t) : (Function.update s.threads t { s.threads t with pc := q }) u = s.threads u :=
    Function.update_of_ne other ..
  refine ⟨?_,?_,?_,?_,?_,⟨readers.1,?_⟩,⟨writers.1,?_⟩,?_,?_,inv.exclusive,?_,?_,?_⟩
  · intro u
    have before := inv.lock u
    by_cases his : u = t
    · subst his
      rw [here,unlocked.1] at before
      simpa [State.goto,unlocked.2] using before
    · simpa [State.goto,his] using before
  · rw [State.goto,sum _ rfl]
    exact inv.ar
  · rw [State.goto,sum _ rfl]
    exact inv.aw
  · rw [State.goto,sum _ (weight true)]
    exact inv.wr
  · rw [State.goto,sum _ (weight false)]
    exact inv.ww
  · intro u
    by_cases his : u = t
    · subst his
      simp [State.goto,readers.2,awake true]
    · simp [State.goto,readers.2,his,inv.read.2 u]
  · intro u
    by_cases his : u = t
    · subst his
      simp [State.goto,writers.2,awake false]
    · simp [State.goto,writers.2,his,inv.write.2 u]
  · intro u b place
    by_cases his : u = t
    · subst his
      simp only [State.goto,Function.update_self] at place
      rcases place with rfl | rfl <;> simp [Pc.locked] at unlocked
    · simp only [State.goto,others u his] at place
      exact inv.closed u b place
  · intro u b place
    by_cases his : u = t
    · subst his
      simp only [State.goto,Function.update_self] at place
      subst place
      simp [Pc.locked] at unlocked
    · simp only [State.goto,others u his] at place
      exact inv.entered u b place
  · intro u b place
    by_cases his : u = t
    · subst his
      simp only [State.goto,Function.update_self] at place ⊢
      exact holds b place
    · simp only [State.goto,others u his] at place ⊢
      exact inv.holds u b place
  · intro asleep
    have before : s.read ≠ [] := by
      obtain ⟨u,member⟩ := List.exists_mem_of_ne_nil _ asleep
      exact List.ne_nil_of_mem ((readers.2 u).mp member).2
    rcases inv.readers before with positive | ⟨u,opens⟩
    · exact Or.inl positive
    · have other : u ≠ t := by
        rintro rfl
        rw [here,quiet.1] at opens
        contradiction
      exact Or.inr ⟨u,by simpa [State.goto,other] using opens⟩
  · intro asleep
    have before : s.write ≠ [] := by
      obtain ⟨u,member⟩ := List.exists_mem_of_ne_nil _ asleep
      exact List.ne_nil_of_mem ((writers.2 u).mp member).2
    rcases inv.writers before with positive | ⟨u,admits⟩
    · exact Or.inl positive
    · have other : u ≠ t := by
        rintro rfl
        rw [here,quiet.2] at admits
        contradiction
      exact Or.inr ⟨u,by simpa [State.goto,other] using admits⟩

/-- A thread leaves a queue because it is signalled. -/
theorem Inv.wake (inv : Inv s) (here : (s.threads u).pc = .asleep r) (read : List Tid) (write : List Tid)
    (readers : read.Nodup ∧ ∀ v, v ∈ read ↔ v ≠ u ∧ v ∈ s.read) (writers : write.Nodup ∧ ∀ v, v ∈ write ↔ v ≠ u ∧ v ∈ s.write) :
    Inv (State.goto { s with read := read, write := write } u (.signalled r)) :=
  inv.pass here ⟨rfl,rfl⟩ (by simp [Pc.counted]) ⟨rfl,rfl⟩ (by simp) (by simp) readers writers

omit [DecidableEq Tid] [Fintype Tid] in
/-- A queue without its first thread. -/
theorem queue_rest {queue rest : List Tid} (nodup : queue.Nodup) (first : queue = u :: rest) :
    rest.Nodup ∧ ∀ v, v ∈ rest ↔ v ≠ u ∧ v ∈ queue := by
  rw [first,List.nodup_cons] at nodup
  refine ⟨nodup.2,fun v => ?_⟩
  rw [first,List.mem_cons]
  constructor
  · intro member
    have other : v ≠ u := by
      rintro rfl
      exact nodup.1 member
    exact ⟨other,Or.inr member⟩
  · rintro ⟨other,member⟩
    exact member.resolve_left other

omit [DecidableEq Tid] [Fintype Tid] in
theorem queue_other {queue : List Tid} (nodup : queue.Nodup) (absent : u ∉ queue) :
    queue.Nodup ∧ ∀ v, v ∈ queue ↔ v ≠ u ∧ v ∈ queue := by
  refine ⟨nodup,fun v => ⟨fun member => ⟨?_,member⟩,fun both => both.2⟩⟩
  rintro rfl
  exact absent member

theorem Inv.wakeWriter (inv : Inv s) (first : s.write = u :: rest) :
    Inv (State.goto { s with write := rest } u (.signalled false)) ∧ (s.threads u).pc = .asleep false := by
  have here := (inv.write.2 u).mp (by simp [first])
  have absent : u ∉ s.read := by
    rw [inv.read.2,here]
    simp
  exact ⟨inv.wake here s.read rest (queue_other inv.read.1 absent) (queue_rest inv.write.1 first),here⟩

theorem Inv.wakeReader (inv : Inv s) (first : s.read = u :: rest) :
    Inv (State.goto { s with read := rest } u (.signalled true)) := by
  have here := (inv.read.2 u).mp (by simp [first])
  have absent : u ∉ s.write := by
    rw [inv.write.2,here]
    simp
  exact inv.wake here rest s.write (queue_rest inv.read.1 first) (queue_other inv.write.1 absent)

/-- The thread goes to release the inner lock after it has signalled what it had to. -/
theorem Inv.finish (inv : Inv s) (here : (s.threads t).pc = .releaseSignal r ∨ (s.threads t).pc = .releaseBroadcast)
    (readers : s.read ≠ [] → s.AW + s.WW > 0)
    (writers : s.write ≠ [] → s.AR + s.AW > 0 ∨ ∃ u, u ≠ t ∧ (s.threads u).pc = .signalled false) :
    Inv (s.goto t .releaseUnlock) := by
  have mine : s.holder = some t := by rcases here with here | here <;> exact inv.mine here rfl
  have weight (b : Bool) : counted b { s.threads t with pc := .releaseUnlock } = counted b (s.threads t) := by
    rcases here with here | here <;> simp [counted,here,Pc.counted]
  obtain ⟨read,write⟩ : (s.read.Nodup ∧ ∀ u, u ∈ s.read ↔ u ≠ t ∧ u ∈ s.read ∨ u = t ∧ Pc.releaseUnlock = .asleep true) ∧
      s.write.Nodup ∧ ∀ u, u ∈ s.write ↔ u ≠ t ∧ u ∈ s.write ∨ u = t ∧ Pc.releaseUnlock = .asleep false := by
    rcases here with here | here <;> exact inv.queues_same here (by simp)
  refine inv.change { s.threads t with pc := .releaseUnlock } (Or.inr mine) rfl ?_ rfl rfl ?_ ?_ read write ?_ ?_
    inv.exclusive ?_ ?_ ?_
  · simp [State.goto,Pc.locked,mine]
  · rw [weight]
    rfl
  · rw [weight]
    rfl
  · simp
  · simp
  · simp
  · exact fun asleep => Or.inl (readers asleep)
  · intro asleep
    exact (writers asleep).imp_right Or.inr

/-- `cond_signal` on the writers while one is counted; there may be none left asleep. -/
theorem Inv.signalWrite (inv : Inv s) (here : (s.threads t).pc = .releaseSignal r) (counted : s.WW > 0) :
    Inv (s.signalWrite t) := by
  have bounds := inv.nonneg
  simp only [State.signalWrite]
  split
  · rename_i empty
    exact inv.finish (Or.inl here) (fun _ => by omega) (fun asleep => absurd empty asleep)
  · rename_i first rest queue
    obtain ⟨woken,asleep⟩ := inv.wakeWriter queue
    have other : t ≠ first := by
      rintro rfl
      simp [here] at asleep
    have there : (State.goto { s with write := rest } first (.signalled false)).threads t = s.threads t := by
      simp [State.goto,other]
    refine woken.finish (r := r) (Or.inl (by rw [there,here])) (fun _ => ?_) (fun _ => Or.inr ⟨first,Ne.symm other,?_⟩)
    · simp only [State.goto]
      omega
    · simp [State.goto]

theorem Inv.signalByReader (inv : Inv s) (here : (s.threads t).pc = .releaseSignal true) :
    Inv (if s.AR = 0 ∧ s.WW > 0 then s.signalWrite t else s.goto t .releaseUnlock) := by
  have bounds := inv.nonneg
  split
  · rename_i last
    exact inv.signalWrite here last.2
  · rename_i quiet
    refine inv.finish (Or.inl here) (fun asleep => ?_) (fun asleep => Or.inl ?_)
    · simpa [here,Pc.opens] using inv.readers_mine (Or.inr (inv.mine here rfl)) asleep
    · have := inv.write_counted asleep
      omega

theorem Inv.signalByWriter (inv : Inv s) (here : (s.threads t).pc = .releaseSignal false) :
    Inv (if s.WW > 0 then s.signalWrite t
      else if s.WR > 0 then s.goto t .releaseBroadcast
      else s.goto t .releaseUnlock) := by
  have mine := inv.mine here rfl
  split
  · rename_i writers
    exact inv.signalWrite here writers
  · rename_i writers
    have none : s.write = [] := by
      by_contra asleep
      exact writers (inv.write_counted asleep)
    split
    · apply inv.shift (o := s.holder) .releaseBroadcast (Or.inr mine) here <;>
        simp [Pc.locked,Pc.counted,Pc.opens,Pc.admits,mine,none]
    · rename_i readers
      exact inv.finish (Or.inl here) (fun asleep => absurd (inv.read_counted asleep) readers) (fun asleep => absurd none asleep)

/-- One round of `cond_broadcast`, or its end. -/
theorem Inv.broadcast (inv : Inv s) (here : (s.threads t).pc = .releaseBroadcast) (ran : advance t s = some s') : Inv s' := by
  simp only [advance,here] at ran
  split at ran
  · rename_i empty
    cases ran
    refine inv.finish (r := true) (Or.inr here) (fun asleep => absurd empty asleep) (fun asleep => ?_)
    simpa [here,Pc.admits] using inv.writers_mine (Or.inr (inv.mine here rfl)) asleep
  · rename_i first rest queue
    cases ran
    exact inv.wakeReader queue

/-- A call: the thread goes to take the inner lock, whoever has it. -/
theorem Inv.call (inv : Inv s) (idle : (s.threads t).pc = .outside)
    (target : q = .acquireLock r ∨ q = .releaseLock r ∧ (s.threads t).has r) : Inv (s.goto t q) := by
  have absent (list : List Tid) (b : Bool) (asleep : ∀ u, u ∈ list ↔ (s.threads u).pc = .asleep b) (u : Tid) :
      u ∈ list ↔ u ≠ t ∧ u ∈ list := by
    have out : t ∉ list := by simp [asleep t,idle]
    exact ⟨fun member => ⟨ne_of_mem_of_not_mem member out,member⟩,And.right⟩
  refine inv.pass idle ⟨rfl,?_⟩ ?_ ⟨rfl,rfl⟩ ?_ ?_ ⟨inv.read.1,absent s.read true inv.read.2⟩
    ⟨inv.write.1,absent s.write false inv.write.2⟩
  · rcases target with rfl | ⟨rfl,_⟩ <;> rfl
  · rcases target with rfl | ⟨rfl,_⟩ <;> exact fun _ => rfl
  · rcases target with rfl | ⟨rfl,_⟩ <;> simp
  · intro b place
    rcases target with rfl | ⟨rfl,held⟩
    · simp at place
    · simp only [Pc.releaseLock.injEq,reduceCtorEq,or_false] at place
      exact place ▸ held

theorem Inv.advance (inv : Inv s) (ran : advance t s = some s') : Inv s' := by
  cases here : (s.threads t).pc with
  | outside => simp [ReadersWriter.advance,here] at ran
  | asleep r => simp [ReadersWriter.advance,here] at ran
  | acquireLock r =>
    simp only [ReadersWriter.advance,here,Option.ite_none_right_eq_some,Option.some.injEq] at ran
    obtain ⟨free,rfl⟩ := ran
    exact inv.takeLock free here
  | signalled r =>
    simp only [ReadersWriter.advance,here,Option.ite_none_right_eq_some,Option.some.injEq] at ran
    obtain ⟨free,rfl⟩ := ran
    exact inv.resume free here
  | releaseLock r =>
    simp only [ReadersWriter.advance,here,Option.ite_none_right_eq_some,Option.some.injEq] at ran
    obtain ⟨free,rfl⟩ := ran
    exact inv.takeRelease free here
  | acquireTest r =>
    simp only [ReadersWriter.advance,here,Option.ite_none_right_eq_some,Option.some.injEq] at ran
    exact ran.2 ▸ inv.test here
  | acquireCount r =>
    cases r <;> simp only [ReadersWriter.advance,here,Option.ite_none_right_eq_some,Option.some.injEq] at ran
    · exact ran.2 ▸ inv.countWriter here
    · exact ran.2 ▸ inv.countReader here
  | acquireWait r =>
    cases r <;> simp only [ReadersWriter.advance,here,Option.some.injEq] at ran
    · exact ran ▸ inv.waitWriter here
    · exact ran ▸ inv.waitReader here
  | acquireUncount r =>
    cases r <;> simp only [ReadersWriter.advance,here,Option.some.injEq] at ran
    · exact ran ▸ inv.uncountWriter here
    · exact ran ▸ inv.uncountReader here
  | acquireEnter r =>
    cases r <;> simp only [ReadersWriter.advance,here,Option.ite_none_right_eq_some,Option.some.injEq] at ran
    · exact ran.2 ▸ inv.enterWriter here
    · exact ran.2 ▸ inv.enterReader here
  | acquireUnlock =>
    simp only [ReadersWriter.advance,here,Option.some.injEq] at ran
    exact ran ▸ inv.unlock (Or.inl here)
  | releaseGive r =>
    cases r <;> simp only [ReadersWriter.advance,here,Option.some.injEq] at ran
    · exact ran ▸ inv.giveWriter here
    · exact ran ▸ inv.giveReader here
  | releaseSignal r =>
    cases r <;> simp only [ReadersWriter.advance,here,Option.some.injEq] at ran
    · exact ran ▸ inv.signalByWriter here
    · exact ran ▸ inv.signalByReader here
  | releaseBroadcast => exact inv.broadcast here ran
  | releaseUnlock =>
    simp only [ReadersWriter.advance,here,Option.some.injEq] at ran
    exact ran ▸ inv.unlock (Or.inr here)

theorem Inv.step (inv : Inv s) (taken : Step h s e s') : Inv s' := by
  cases taken with
  | acquire idle => exact inv.call idle (Or.inl rfl)
  | release idle held => exact inv.call idle (Or.inr ⟨rfl,held⟩)
  | step ran => exact inv.advance ran

theorem run_inv (run : History.Path Step [] State.init h s) : Inv s :=
  run.invariant (fun _ s => Inv s) (fun _ _ _ _ inv taken => inv.step taken) init_inv

omit [DecidableEq Tid] in
theorem Inv.unlocked (inv : Inv s) (free : s.holder = none) (t : Tid) : (s.threads t).pc.locked = false := by
  simp [← Bool.not_eq_true,inv.lock t,free]

omit [DecidableEq Tid] in
/-- While the inner lock is free, the threads that are counted are inside `cond_wait`. -/
theorem Inv.counted_waiting (inv : Inv s) (free : s.holder = none) (r : Bool) :
    total (counted r) s.threads = total (waiting r) s.threads := by
  have each : ∀ t, counted r (s.threads t) = waiting r (s.threads t) := by
    intro t
    have unlocked := inv.unlocked free t
    cases here : (s.threads t).pc <;> simp_all [counted,waiting,Pc.counted,Pc.waiting,Pc.locked]
  exact Finset.sum_congr rfl fun t _ => each t

end

/-- A thread becomes a writer, another writer goes to sleep behind it, the first releases and
signals the other. -/
def handOver : List (Event Bool) :=
  [.acquire false false,.step false,.step false,.step false,.step false,
    .acquire true false,.step true,.step true,.step true,.step true,
    .release false false,.step false,.step false,.step false,.step false]

def reached (events : List (Event Bool)) : State Bool :=
  (History.arrive perform (fun _ _ _ => True) State.init events).2

theorem reached_run (events : List (Event Bool))
    (handled : (History.replay perform (fun _ _ _ => True) events ([],State.init)).isSome = true) :
    ∃ h, History.Path Step [] State.init h (reached events) :=
  ⟨_,History.arrive_path (fun _ _ _ _ _ ran _ => perform_step ran) handled⟩

section
variable {Tid : Type} [Fintype Tid] [DecidableEq Tid] {s : State Tid}

/-- In every run of acquires and releases there is at most one active writer, and none together
with an active reader. The counters are never negative, and while the inner lock is free they are
the numbers of holds and of threads inside `cond_wait`. -/
theorem rw_lock_exclusive (run : History.Path Step [] State.init h s) :
    total Thread.writing s.threads ≤ 1 ∧
      (total Thread.writing s.threads = 0 ∨ total Thread.reading s.threads = 0) ∧
      (s.holder = none → s.AR = total Thread.reading s.threads ∧ s.AW = total Thread.writing s.threads ∧
        s.WR = total (waiting true) s.threads ∧ s.WW = total (waiting false) s.threads) ∧
      0 ≤ s.AR ∧ 0 ≤ s.AW ∧ 0 ≤ s.WR ∧ 0 ≤ s.WW := by
  have inv := run_inv run
  have exclusive := inv.exclusive
  have ar := inv.ar
  have aw := inv.aw
  refine ⟨by omega,by omega,fun free => ⟨ar,aw,?_,?_⟩,inv.nonneg⟩
  · rw [inv.wr,inv.counted_waiting free]
  · rw [inv.ww,inv.counted_waiting free]

/-- The run in which a writer waits for another: while both are inside, one is active and one waits. -/
theorem rw_lock_exclusive_writers : (reached (handOver.take 10)).AW = 1 ∧ (reached (handOver.take 10)).WW = 1 ∧
    total Thread.writing (reached (handOver.take 10)).threads ≤ 1 := by
  obtain ⟨h,run⟩ := reached_run (handOver.take 10) (by decide)
  exact ⟨by decide,by decide,(rw_lock_exclusive run).1⟩

omit [DecidableEq Tid] in
/-- A writer asleep while nobody is active has a signalled writer ahead of it. -/
theorem Inv.writer_signalled (inv : Inv s) (free : s.holder = none) (quiet : s.AR + s.AW = 0) (asleep : s.write ≠ []) :
    ∃ u, (s.threads u).pc = .signalled false := by
  rcases inv.writers asleep with positive | ⟨u,admits⟩
  · omega
  · rcases admits_locked admits with locked | signalled
    · rw [inv.unlocked free u] at locked
      contradiction
    · exact ⟨u,signalled⟩

omit [DecidableEq Tid] in
/-- A counted writer is asleep or signalled while the inner lock is free. -/
theorem Inv.counted_writer (inv : Inv s) (free : s.holder = none) (counted : s.WW > 0) :
    s.write ≠ [] ∨ ∃ u, (s.threads u).pc = .signalled false := by
  have positive : 0 < total (waiting false) s.threads := by
    have := inv.ww
    rw [inv.counted_waiting free] at this
    omega
  obtain ⟨u,waits⟩ := total_pos.mp positive
  have member := inv.write.2 u
  cases here : (s.threads u).pc with
  | asleep r =>
    cases r
    · exact Or.inl (List.ne_nil_of_mem (member.mpr here))
    · simp [waiting,here,Pc.waiting] at waits
  | signalled r =>
    cases r
    · exact Or.inr ⟨u,here⟩
    · simp [waiting,here,Pc.waiting] at waits
  | _ => simp [waiting,here,Pc.waiting] at waits

omit [DecidableEq Tid] in
theorem Inv.signalled_exists (inv : Inv s) (free : s.holder = none) (reading : s.AR = 0) (writing : s.AW = 0)
    (waits : (s.threads t).pc.waiting r) : ∃ u b, (s.threads u).pc = .signalled b := by
  have writers (asleep : s.write ≠ []) : ∃ u b, (s.threads u).pc = .signalled b := by
    obtain ⟨u,signalled⟩ := inv.writer_signalled free (by omega) asleep
    exact ⟨u,false,signalled⟩
  cases here : (s.threads t).pc with
  | signalled b => exact ⟨t,b,here⟩
  | asleep b =>
    cases b
    · exact writers (List.ne_nil_of_mem ((inv.write.2 t).mpr here))
    · -- A reader sleeps only behind a writer, and with the lock free that one waits too.
      rcases inv.readers (List.ne_nil_of_mem ((inv.read.2 t).mpr here)) with positive | ⟨u,opens⟩
      · rcases inv.counted_writer free (by omega) with asleep | ⟨u,signalled⟩
        · exact writers asleep
        · exact ⟨u,false,signalled⟩
      · have locked := opens_locked opens
        rw [inv.unlocked free u] at locked
        contradiction
  | _ => simp [here,Pc.waiting] at waits

omit [Fintype Tid] in
/-- A signalled thread tests its condition again with the inner lock held. -/
theorem signalled_retests (free : s.holder = none) (here : (s.threads t).pc = .signalled r) :
    ∃ s₁ s₂, advance t s = some s₁ ∧ advance t s₁ = some s₂ ∧ (s₂.threads t).pc = .acquireTest r ∧ s₂.holder = some t := by
  refine ⟨State.goto { s with holder := some t } t (.acquireUncount r),?_⟩
  cases r with
  | true =>
    refine ⟨_,by simp [advance,here,free],by simp [advance,State.goto]; rfl,?_⟩
    simp
  | false =>
    refine ⟨_,by simp [advance,here,free],by simp [advance,State.goto]; rfl,?_⟩
    simp

/-- No thread is active, some thread is inside `cond_wait` and the inner lock is free: then one of
the waiting threads has been signalled, takes the lock when it runs and tests its condition. -/
theorem rw_lock_no_lost_wakeup (run : History.Path Step [] State.init h s) (free : s.holder = none)
    (idle : ∀ u, (s.threads u).reading = 0 ∧ (s.threads u).writing = 0) (waits : (s.threads t).pc.waiting r) :
    ∃ u b, (s.threads u).pc = .signalled b ∧
      ∃ s₁ s₂, advance u s = some s₁ ∧ advance u s₁ = some s₂ ∧ (s₂.threads u).pc = .acquireTest b ∧ s₂.holder = some u := by
  have inv := run_inv run
  have reading : s.AR = 0 := by
    rw [inv.ar,total_zero fun u => (idle u).1]
    rfl
  have writing : s.AW = 0 := by
    rw [inv.aw,total_zero fun u => (idle u).2]
    rfl
  obtain ⟨u,b,signalled⟩ := inv.signalled_exists free reading writing waits
  exact ⟨u,b,signalled,signalled_retests free signalled⟩

theorem rw_lock_no_lost_wakeup_writer : ∃ u b, ((reached handOver).threads u).pc = .signalled b ∧
    ∃ s₁ s₂, advance u (reached handOver) = some s₁ ∧ advance u s₁ = some s₂ ∧ (s₂.threads u).pc = .acquireTest b ∧
      s₂.holder = some u := by
  obtain ⟨h,run⟩ := reached_run handOver (by decide)
  exact rw_lock_no_lost_wakeup (t := true) (r := false) run (by decide) (by decide) (by decide)

end

end OsProj.Synch.ReadersWriter
