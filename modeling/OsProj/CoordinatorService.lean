import OsProj.CoordinatorRecords

/-! Requests of any kind, also reports that no worker should send: the order of the queue, what
GET_TASK answers, and the arguments that its replies carry. -/
namespace OsProj.MapReduce

open OsProj.History

abbrev Serving : List Event → Coordinator → Prop := Path (fun _ s e s' => e.Served s s') [] coordinatorInit

structure Faithful (h : List Event) (k : Int) (job : Job) : Prop where
  natural : 0 ≤ k
  submitted : ∃ argp behind, submission h k = some argp ∧ (argp.files.length : Int) ≤ intMax ∧
    SameSubmission (newJob argp behind k.toNat) job
  files : ∀ slot task, job.taskInfo.lookup slot = some task → task.reduce = false → ∃ file, task.file = some file

/-- The queue is in order, and whatever is not done is in it. -/
structure Orderly (h : List Event) (s : Coordinator) : Prop where
  counter : s.counter = (submissions h).length
  known : ∀ k, (∃ job, s.jobInfo.lookup k = some job) ↔ 0 ≤ k ∧ k < s.counter
  faithful : ∀ k job, s.jobInfo.lookup k = some job → Faithful h k job
  sorted : s.jobs.Pairwise (· < ·)
  queued : ∀ k ∈ s.jobs, 0 ≤ k ∧ k < s.counter
  live : ∀ k job, s.jobInfo.lookup k = some job → job.done = false → k ∈ s.jobs

theorem Faithful.key (faithful : Faithful h k job) : job.jobID = k := by
  obtain ⟨argp,behind,_,_,same⟩ := faithful.submitted
  rw [same.jobID]
  have := faithful.natural
  simp only [newJob]
  omega

theorem faithful_fresh (argp : SubmitJobRequest) (behind : List UInt8) (answer : Int) (fits : (argp.files.length : Int) ≤ intMax) :
    Faithful (.submitJob argp behind answer :: h) ((submissions h).length : Int) (newJob argp behind (submissions h).length) where
  natural := by omega
  submitted := ⟨argp,behind,by simp [submission,submissions],fits,.refl _⟩
  files := by simp [newJob]

theorem JobStep.submission (step : JobStep k e job job') : SameSubmission job job' := by
  cases step with
  | handOut live names own handOut =>
    cases handOut with
    | again => exact .refl job
    | map => exact startMap_same job _ _
    | reduce => exact startReduce_same job _
  | fail => exact fail_same job
  | finish own success found finished => exact finished.submission
  | _ => exact .refl job

/-- A record that has no file is one of a reduce task. -/
theorem JobStep.files (step : JobStep k e job job')
    (files : ∀ slot task, job.taskInfo.lookup slot = some task → task.reduce = false → ∃ file, task.file = some file) :
    ∀ slot task, job'.taskInfo.lookup slot = some task → task.reduce = false → ∃ file, task.file = some file := by
  intro slot task found map
  cases step with
  | handOut live names own handOut =>
    cases handOut with
    | again => exact files slot task found map
    | map unassigned file =>
      rw [Job.startMap,lookup_insert_eq] at found
      split at found
      · cases found
        exact ⟨_,rfl⟩
      · exact files slot task found map
    | reduce =>
      rw [Job.startReduce,lookup_insert_eq] at found
      split at found
      · cases found
        contradiction
      · exact files slot task found map
  | finish own success record finished =>
    rw [finished.taskInfo] at found
    split at found
    · cases found
      obtain ⟨file,has⟩ := files _ _ record map
      exact ⟨file,has⟩
    · exact files slot task found map
  | _ => exact files slot task found map

theorem Faithful.step (faithful : Faithful h k job) (step : JobStep k e job job') : Faithful (e :: h) k job' := by
  obtain ⟨argp,behind,known,fits,same⟩ := faithful.submitted
  exact ⟨faithful.natural,⟨argp,behind,submission_cons e known,fits,same.trans step.submission⟩,step.files faithful.files⟩

theorem Orderly.keyed (orderly : Orderly h s) (k : Int) (job : Job) (found : s.jobInfo.lookup k = some job) : job.jobID = k :=
  (orderly.faithful k job found).key

theorem orderly_init : Orderly [] coordinatorInit := by
  constructor <;> simp [coordinatorInit,submissions]

section
variable {e : Event} {s s' : Coordinator} {h : List Event}

/-- Where a record after a request comes from. -/
theorem Orderly.lookup_back (orderly : Orderly h s) (served : e.Served s s') (found : s'.jobInfo.lookup k = some job') :
    (∃ argp behind answer, e = .submitJob argp behind answer ∧ k = s.counter ∧ job' = newJob argp behind s.counter) ∨
    ∃ job, s.jobInfo.lookup k = some job ∧ JobStep k e job job' := by
  rcases served_lookup served orderly.keyed k with ⟨argp,behind,answer,rfl,rfl,made⟩ | ⟨_,absent⟩ | ⟨job,_,found',same,moved⟩
  · exact .inl ⟨argp,behind,answer,rfl,rfl,Option.some.inj (found.symm.trans made)⟩
  · rw [found] at absent
    contradiction
  · obtain rfl := Option.some.inj (found.symm.trans same)
    exact .inr ⟨job,found',moved⟩

theorem Orderly.known_step (orderly : Orderly h s) (served : e.Served s s') (k : Int) :
    (∃ job, s'.jobInfo.lookup k = some job) ↔ 0 ≤ k ∧ k < s'.counter := by
  have before := orderly.known k
  rcases served_lookup served orderly.keyed k with ⟨argp,behind,answer,rfl,rfl,made⟩ | ⟨absent,absent'⟩ |
    ⟨job,job',found,found',_⟩
  · obtain ⟨_,_,after,_⟩ := submitJob_cases served
    have count : s'.counter = s.counter + 1 := by rw [after]
    exact iff_of_true ⟨_,made⟩ ⟨by omega,by omega⟩
  · have outside : ¬(0 ≤ k ∧ k < s.counter) := by
      rw [← before,absent]
      simp
    refine iff_of_false (by simp [absent']) ?_
    rcases served_queue served with ⟨argp,behind,answer,rfl,count,_,_⟩ | ⟨_,_,_,_,_,_,count,_⟩ | ⟨_,count,_⟩
    · have other : k ≠ s.counter := by
        rintro rfl
        obtain ⟨_,_,after,_⟩ := submitJob_cases served
        rw [after,lookup_insert_eq,if_pos rfl] at absent'
        contradiction
      omega
    · rwa [count]
    · rwa [count]
  · have inside := before.mp ⟨job,found⟩
    refine iff_of_true ⟨job',found'⟩ ?_
    rcases served_queue served with ⟨_,_,_,_,count,_,_⟩ | ⟨_,_,_,_,_,_,count,_⟩ | ⟨_,count,_⟩
    all_goals rw [count]; omega

theorem Orderly.live_step (orderly : Orderly h s) (served : e.Served s s') (found : s'.jobInfo.lookup k = some job')
    (live : job'.done = false) : k ∈ s'.jobs := by
  have before : (∃ job, s.jobInfo.lookup k = some job ∧ job.done = false) ∨
      ∃ argp behind answer, e = .submitJob argp behind answer ∧ k = s.counter := by
    rcases orderly.lookup_back served found with ⟨argp,behind,answer,shape,last,_⟩ | ⟨job,found,moved⟩
    · exact .inr ⟨argp,behind,answer,shape,last⟩
    · exact .inl ⟨job,found,moved.live live⟩
  rcases served_queue served with ⟨_,_,_,rfl,_,queue,_⟩ | ⟨i,_,done,rfl,atDone,isDone,_,queue⟩ | ⟨other,_,queue⟩
  · rw [queue,List.mem_append,List.mem_singleton]
    rcases before with ⟨job,found,running⟩ | ⟨_,_,_,_,last⟩
    · exact .inl (orderly.live k job found running)
    · exact .inr last
  · rcases before with ⟨job,found,running⟩ | ⟨_,_,_,impossible,_⟩
    · rw [queue]
      apply (List.mem_erase_of_ne _).mpr (orderly.live k job found running)
      rintro rfl
      obtain rfl := Option.some.inj (atDone.symm.trans found)
      rw [isDone] at running
      contradiction
    · contradiction
  · rcases before with ⟨job,found,running⟩ | ⟨argp,behind,answer,shape,_⟩
    · rw [queue]
      exact orderly.live k job found running
    · exact absurd shape (other argp behind answer)

theorem Orderly.step (orderly : Orderly h s) (served : e.Served s s') : Orderly (e :: h) s' := by
  refine ⟨?_,orderly.known_step served,?_,?_,?_,fun k job found => orderly.live_step served found⟩
  · rcases served_queue served with ⟨argp,behind,answer,rfl,count,_,_⟩ | ⟨k,answer,_,rfl,_,_,count,_⟩ | ⟨other,count,_⟩
    · rw [count,orderly.counter]
      simp [submissions]
    · rw [count,orderly.counter]
      rfl
    · rw [count,orderly.counter,submissions_cons other]
  · intro k job' found
    rcases orderly.lookup_back served found with ⟨argp,behind,answer,rfl,rfl,rfl⟩ | ⟨job,before,moved⟩
    · rw [orderly.counter]
      exact faithful_fresh argp behind answer (submitJob_cases served).1
    · exact (orderly.faithful k job before).step moved
  · rcases served_queue served with ⟨_,_,_,_,_,queue,_⟩ | ⟨_,_,_,_,_,_,_,queue⟩ | ⟨_,_,queue⟩
    · rw [queue,List.pairwise_append]
      refine ⟨orderly.sorted,List.pairwise_singleton _ _,fun k here last member => ?_⟩
      obtain rfl := List.mem_singleton.mp member
      exact (orderly.queued k here).2
    · rw [queue]
      exact orderly.sorted.sublist List.erase_sublist
    · rw [queue]
      exact orderly.sorted
  · intro k member
    rcases served_queue served with ⟨_,_,_,_,count,queue,_⟩ | ⟨_,_,_,_,_,_,count,queue⟩ | ⟨_,count,queue⟩
    · rw [queue,List.mem_append,List.mem_singleton] at member
      rw [count]
      rcases member with earlier | rfl
      · have := orderly.queued k earlier
        omega
      · omega
    · rw [queue] at member
      rw [count]
      exact orderly.queued k (List.mem_of_mem_erase member)
    · rw [queue] at member
      rw [count]
      exact orderly.queued k member

end

theorem serving_orderly (run : Serving h s) : Orderly h s :=
  run.invariant Orderly (fun _ _ _ _ orderly served => orderly.step served) orderly_init

theorem Run.serving (run : Run h s) : Serving h s := run.mono fun _ _ _ _ step => step.2

/-! The answers of GET_TASK. -/

theorem Faithful.servable (faithful : Faithful h k job) : job.Servable := by
  obtain ⟨argp,behind,_,fits,same⟩ := faithful.submitted
  have maps : job.nMap = argp.files.length := same.nMap
  constructor
  · intro unassigned
    have below := (mapAssignable_iff.mp unassigned).1
    have table : job.mapTasks = insertFiles 0 argp.files ∅ := same.mapTasks
    rw [table,insertFiles_lookup,if_pos (by omega)]
    exact ⟨_,List.getElem?_eq_getElem (by omega)⟩
  · intro unassigned
    have below := (mapAssignable_iff.mp unassigned).1
    omega
  · intro unassigned
    have below := (reduceAssignable_iff.mp unassigned).2.1
    rw [same.nReduce] at below
    exact Int.lt_of_lt_of_le below argp.nReduce_range.2
  · intro task member kind
    obtain ⟨slot,found⟩ := (mem_tasks_iff job task).mp member
    exact faithful.files slot task found kind

/-- The scan answers where the records can be served. -/
theorem scanJobs_answers {s : Coordinator} (order : IterOrder) (now : Int) (queue : List Int)
    (known : ∀ id ∈ queue, ∃ job, s.jobInfo.lookup id = some job ∧ job.Servable) (result : GetTaskReply) :
    ∃ r s', scanJobs order now s queue result = .ok (r,s') := by
  induction queue generalizing result with
  | nil => exact ⟨_,_,rfl⟩
  | cons id rest ih =>
    obtain ⟨job,found,servable⟩ := known id List.mem_cons_self
    cases ready : job.assignable now with
    | true =>
      obtain ⟨r,s',served,_⟩ : ∃ r s', scanJobs order now s (id :: rest) result = .ok (r,s') ∧ r.wait = false ∧ r.jobId = job.jobID :=
        scanJobs_assigns found ready servable [] rest (by simp) result
      exact ⟨r,s',served⟩
    | false =>
      obtain ⟨result',skipped⟩ := scanJobs_skips order rest ⟨job,found,ready⟩ result
      rw [skipped]
      exact ih (fun i here => known i (List.mem_cons_of_mem _ here)) result'

theorem HandOut.assignable (handOut : HandOut now job r job') (live : job.done = false) : job.assignable now = true := by
  cases handOut with
  | again task member late =>
    have some_ : job.tasks.any (Task.timedOut now) = true := List.any_eq_true.mpr ⟨task,member,late⟩
    simp [Job.assignable,live,some_]
  | map unassigned => simp [Job.assignable,live,unassigned]
  | reduce unassigned => simp [Job.assignable,live,unassigned]

structure FirstWithWork (s : Coordinator) (now : Int) (k : Int) : Prop where
  work : ∃ job, s.jobInfo.lookup k = some job ∧ job.assignable now = true
  first : ∃ before after, s.jobs = before ++ k :: after ∧ ∀ i ∈ before, Idle s now i

/-- Each job that is not done stands in the queue once, in the order of arrival, and GET_TASK
always answers: with a task of the first one that has work, or to wait where there is none. -/
theorem first_come_first_served (run : Serving h s) :
    (∀ k : Int, 0 ≤ k → k < (submissions h).length →
      ∃ job, s.jobInfo.lookup k = some job ∧ (job.done = false → s.jobs.count k = 1)) ∧
    s.jobs.Pairwise (· < ·) ∧
    ∀ order now, ∃ r s', getTask1Svc order now s = .ok (r,s') ∧
      (r.wait = false → FirstWithWork s now r.jobId) ∧
      (r.wait = true ↔ ∀ k job, s.jobInfo.lookup k = some job → job.assignable now = false) := by
  have orderly := serving_orderly run
  have nodup : s.jobs.Nodup := orderly.sorted.imp fun below => Int.ne_of_lt below
  refine ⟨fun k low high => ?_,orderly.sorted,fun order now => ?_⟩
  · obtain ⟨job,found⟩ := (orderly.known k).mpr ⟨low,by rw [orderly.counter]; exact high⟩
    exact ⟨job,found,fun live => List.count_eq_one_of_mem nodup (orderly.live k job found live)⟩
  have known id (here : id ∈ s.jobs) : ∃ job, s.jobInfo.lookup id = some job ∧ job.Servable := by
    obtain ⟨job,found⟩ := (orderly.known id).mpr (orderly.queued id here)
    exact ⟨job,found,(orderly.faithful id job found).servable⟩
  obtain ⟨r,s',served⟩ := scanJobs_answers order now s.jobs known
    { s.getTaskResult with file := "", outputDir := "", app := "", wait := true, argsLen := 0 }
  refine ⟨r,s',served,?_⟩
  rcases getTask_cases served with none | ⟨id,job,job',chosen⟩
  · refine ⟨fun assigned => ?_,iff_of_true none.wait fun k job found => ?_⟩
    · rw [none.wait] at assigned
      contradiction
    · cases live : job.done with
      | true => simp [Job.assignable,live]
      | false =>
        obtain ⟨job',found',idle⟩ := none.idle k (orderly.live k job found live)
        obtain rfl := Option.some.inj (found.symm.trans found')
        exact idle
  · have key : r.jobId = id := chosen.names.jobId.trans (orderly.keyed id job chosen.found)
    have work := chosen.handOut.assignable chosen.live
    refine ⟨fun _ => ?_,iff_of_false ?_ fun idle => ?_⟩
    · rw [key]
      exact ⟨⟨job,chosen.found,work⟩,chosen.position⟩
    · rw [chosen.names.wait]
      exact Bool.false_ne_true
    · rw [idle id job chosen.found] at work
      contradiction

theorem first_come_first_served_two :
    let reached := outcome [.submitJob wordCount [],.submitJob wordCount [],.getTask .insertion 0]
    ∃ r s', getTask1Svc .insertion 3 reached.2 = .ok (r,s') ∧ (r.wait = false → FirstWithWork reached.2 3 r.jobId) ∧
      (r.wait = true ↔ ∀ k job, reached.2.jobInfo.lookup k = some job → job.assignable 3 = false) := by
  intro reached
  have run : Run reached.1 reached.2 := outcome_run _ (by decide)
  exact (first_come_first_served run.serving).2.2 .insertion 3

/-! Arguments. -/

/-- The bytes of the arguments that a reply carries: as many as its length says, from the copy and
its terminating zero and, where these are too short, from what lies behind them on the heap. -/
def GetTaskReply.sentArgs (r : GetTaskReply) (heap : Nat → UInt8) : List UInt8 :=
  (List.range r.argsLen).map fun i => (r.argsVal.getD [] ++ [0]).getD i (heap i)

/-- What is copied of the arguments holds all of them, unless a zero comes before their last byte. -/
theorem strdup_holds_iff (args behind : List UInt8) : args <+: strdup (args ++ behind) ++ [0] ↔ 0 ∉ args.dropLast := by
  induction args with
  | nil => simp
  | cons byte rest ih =>
    by_cases zero : byte = 0
    · subst zero
      cases rest with
      | nil => simp [strdup]
      | cons next rest => simp [strdup]
    · have copied : strdup (byte :: rest ++ behind) = byte :: strdup (rest ++ behind) := by
        simp [strdup,zero]
      rw [copied,List.cons_append,List.cons_prefix_cons,ih]
      cases rest with
      | nil => simp
      | cons next rest => simp [Ne.symm zero]

/-- Bytes from the heap may be any. -/
theorem sent_iff_same (args text : List UInt8) :
    (∀ heap : Nat → UInt8, ((List.range args.length).map fun i => text.getD i (heap i)) = args) ↔ args <+: text := by
  rw [List.prefix_iff_getElem?]
  constructor
  · intro sent i inside
    have byte := congrArg (fun bytes : List UInt8 => bytes[i]?) (sent fun i => args.getD i 0 + 1)
    simp only [List.getElem?_map,List.getElem?_range inside,Option.map_some,List.getElem?_eq_getElem inside,
      List.getD_eq_getElem?_getD,Option.getD_some,Option.some.injEq] at byte
    cases here : text[i]? with
    | some value => simpa [here] using byte
    | none =>
      rw [here,Option.getD_none] at byte
      exact absurd byte (by simp)
  · intro same heap
    apply List.ext_getElem?
    intro i
    by_cases inside : i < args.length
    · simp only [List.getElem?_map,List.getElem?_range inside,Option.map_some,List.getElem?_eq_getElem inside,
        List.getD_eq_getElem?_getD,same i inside,Option.getD_some]
    · simp [inside]

def copyArgs (args : List UInt8) : Except Fault (Option (List UInt8)) :=
  if args = [] then .ok none else (strdupBlock args).map some

/-- As many bytes as the length of a reply says, from the copy and its terminating zero. -/
def GetTaskReply.encodeArgs (r : GetTaskReply) : Except Fault (List UInt8) :=
  let block := (r.argsVal.map (· ++ [0])).getD []
  if r.argsLen ≤ block.length then .ok (block.take r.argsLen) else .error .outside

/-- Nothing outside of the arrays is read, and the bytes arrive. -/
def Intact (args : List UInt8) (r : GetTaskReply) : Prop := (∃ copy, copyArgs args = .ok copy) ∧ r.encodeArgs = .ok args

/-- Two copies hold the arguments if these are one string with its terminator. -/
theorem intact_copies_iff {r : GetTaskReply} (some_ : args ≠ []) (length : r.argsLen = args.length)
    (copy : r.argsVal = some (strdup (args ++ behind))) : Intact args r ↔ ∃ text, args = text ++ [0] ∧ 0 ∉ text := by
  unfold Intact copyArgs strdupBlock GetTaskReply.encodeArgs
  rw [if_neg some_,length,copy]
  by_cases zero : 0 ∈ args
  · obtain ⟨text,rest,rfl,clean⟩ := List.eq_append_cons_of_mem zero
    have copied : strdup (text ++ 0 :: rest ++ behind) = text := by
      rw [strdup,List.append_assoc,List.takeWhile_append_of_pos (fun byte inside => bne_iff_ne.mpr (by rintro rfl; exact clean inside))]
      exact List.append_nil text
    rw [if_pos zero,copied]
    constructor
    · rintro ⟨-,sent⟩
      by_cases fits : (text ++ 0 :: rest).length ≤ (text ++ [0]).length
      · have last : rest = [] := by
          rw [List.length_append,List.length_append,List.length_cons,List.length_singleton] at fits
          exact List.length_eq_zero_iff.mp (by omega)
        exact ⟨text,by rw [last],clean⟩
      · exact absurd sent (by simp only [Option.map_some,Option.getD_some]; rw [if_neg fits]; exact nofun)
    · rintro ⟨other,same,apart⟩
      obtain rfl : rest = [] := by
        by_contra more
        have inside : (0 : UInt8) ∈ (text ++ 0 :: rest).dropLast := by
          rw [List.dropLast_append_of_ne_nil (List.cons_ne_nil 0 rest),List.dropLast_cons_of_ne_nil more]
          simp
        rw [same,List.dropLast_concat] at inside
        exact apart inside
      have whole : (text ++ [(0 : UInt8)]).take (text.length + 1) = text ++ [0] := List.take_of_length_le (by simp)
      refine ⟨⟨_,rfl⟩,?_⟩
      simp [whole]
  · rw [if_neg zero]
    refine iff_of_false ?_ ?_
    · rintro ⟨⟨copy,failed⟩,-⟩
      cases failed
    · rintro ⟨text,rfl,-⟩
      exact zero (List.mem_append_right _ (List.mem_singleton_self 0))

/-- The arguments arrive as they were submitted exactly where they are empty or one string with its terminator. -/
theorem args_intact_iff (run : Serving h s) (served : getTask1Svc order now s = .ok (r,s')) (handed : r.wait = false) :
    ∃ argp, submission h r.jobId = some argp ∧
      (Intact argp.args r ↔ argp.args = [] ∨ ∃ text, argp.args = text ++ [0] ∧ 0 ∉ text) := by
  have orderly := serving_orderly run
  rcases getTask_cases served with none | ⟨id,job,job',chosen⟩
  · rw [none.wait] at handed
    contradiction
  obtain ⟨argp,behind,known,_,same⟩ := (orderly.faithful id job chosen.found).submitted
  have key : r.jobId = id := chosen.names.jobId.trans (orderly.keyed id job chosen.found)
  have length : r.argsLen = argp.args.length := chosen.names.argsLen.trans same.argsLen
  have copy : r.argsVal = if argp.args = [] then none else some (strdup (argp.args ++ behind)) :=
    chosen.names.argsVal.trans same.argsVal
  refine ⟨argp,key ▸ known,?_⟩
  by_cases empty : argp.args = []
  · rw [empty] at length copy ⊢
    refine iff_of_true ⟨⟨none,rfl⟩,?_⟩ (.inl rfl)
    rw [GetTaskReply.encodeArgs,length,copy]
    rfl
  · rw [if_neg empty] at copy
    rw [intact_copies_iff empty length copy]
    exact (or_iff_right empty).symm

theorem args_intact_iff_text :
    let reached := outcome [.submitJob { wordCount with args := [97,98,0] } []]
    ∃ r s', getTask1Svc .insertion 0 reached.2 = .ok (r,s') ∧ ∃ argp, submission reached.1 r.jobId = some argp ∧
      (Intact argp.args r ↔ argp.args = [] ∨ ∃ text, argp.args = text ++ [0] ∧ 0 ∉ text) := by
  intro reached
  have run : Run reached.1 reached.2 := outcome_run _ (by decide)
  have answers : Answers (fun out => out.1.wait = false) (getTask1Svc .insertion 0 reached.2) := by decide +kernel
  obtain ⟨⟨r,s'⟩,served,handed⟩ := answers.exists
  exact ⟨r,s',served,args_intact_iff run.serving served handed⟩

def zeroInside : SubmitJobRequest := { wordCount with args := [97,0,98] }

/-- The copy is shorter than the reply says. -/
theorem zero_cuts_args :
    let reached := outcome [.submitJob zeroInside []]
    Run reached.1 reached.2 ∧ ∃ r s', getTask1Svc .insertion 0 reached.2 = .ok (r,s') ∧ r.wait = false ∧
      submission reached.1 r.jobId = some zeroInside ∧ ¬Intact zeroInside.args r ∧ ∃ heap, r.sentArgs heap ≠ zeroInside.args := by
  intro reached
  have run : Run reached.1 reached.2 := outcome_run _ (by decide)
  have answers : Answers (fun out => out.1.wait = false ∧ submission reached.1 out.1.jobId = some zeroInside ∧
      out.1.encodeArgs.toOption = none ∧ out.1.sentArgs (fun _ => 0) ≠ zeroInside.args) (getTask1Svc .insertion 0 reached.2) := by
    decide +kernel
  obtain ⟨⟨r,s'⟩,served,handed,submitted,outside,lost⟩ := answers.exists
  refine ⟨run,r,s',served,handed,submitted,?_,fun _ => 0,lost⟩
  rintro ⟨-,sent⟩
  have sent : r.encodeArgs = .ok zeroInside.args := sent
  rw [sent] at outside
  cases outside

end OsProj.MapReduce
