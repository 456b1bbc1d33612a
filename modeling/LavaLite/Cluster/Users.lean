import LavaLite.Mbd.Bulk
import LavaLite.Cluster.Holds
import LavaLite.Mbd.Ownership

/-
A user who is not a manager neither changes nor sees the jobs of others, as long as every
restart can read its manifest.  A signal to every job, and priorities, are such requests.
-/

namespace LavaLite.Cluster

open Base Batch Mbd Sbd Kernel

variable {conf : Conf} {s : System}

theorem Reachable.ownArrays (reached : Reachable conf (Legibly anyStep) s) : OwnArrays s.mbd := by
  have both : EveryJob JoinsEarlier s.mbd ∧ OwnArrays s.mbd := by
    refine Sound.mbd_invariant (fun m => EveryJob JoinsEarlier m ∧ OwnArrays m)
      (fun _ => allows_anyReport _ _) ?start ?acted ?registered ?restarted (fun both => both)
      (sound_initial conf) reached
    case start =>
      exact ⟨initial_everyJob conf JoinsEarlier,
        fun _ job _ found => absurd found (Option.some_ne_none job).symm⟩
    case acted =>
      intro m m' _ both effect
      exact ⟨effect.everyJob both.1, effect.ownArrays both.2⟩
    case registered =>
      intro s env uid gid request m' _ wf both registers
      exact registers.ownArrays wf both.1 both.2
    case restarted =>
      intro s kept m' _ sound both replayed
      have restored := sound.restored replayed
      exact ⟨restored.joinsEarlier both.1, restored.ownArrays both.2⟩
  exact both.2

/--
In every state of a run whose restarts can read their manifests, what a user who is
not a manager asks for leaves every job of others as it was, and what is shown to
such a user is about the own jobs.
-/
theorem owner_isolation (reached : Reachable conf (Legibly anyStep) s) {uid : Nat}
    (user : conf.isManager uid = false) :
    (∀ (request : JobRequest) (now : Time) (m' : MbdState) (status : Status), 0 < now →
      request.handle conf s.mbd now uid = some (m', status) → Spares uid s.mbd m') ∧
    ∀ (query : WireJobQuery) (infos : List WireJobInfo),
      jobsInfo conf s.mbd uid query = some (.jobs infos) →
        ∀ info ∈ infos, info.uid = uid ∧ Shows conf s.mbd uid info := by
  refine ⟨fun request now m' status clock done => ?_, fun query infos answered info member => ?_⟩
  · have requests := JobRequest.requests clock reached.sound.wf done
    exact requests.spares reached.ownArrays user
  · have shown := jobsInfo_shows answered info member
    exact ⟨shown.own user, shown⟩

def submitBy (uid : Nat) (now : Time) (request : WireJobSubmit) : Label :=
  .submit { now := now, filesOk := fun _ => true, replyOk := true, junk := fun _ => 0 }
    uid uid request

def twoArrays : List Label :=
  [submitAt 1 pairRequest, submitBy 2 2 pairRequest]

def killAll : JobRequest :=
  .signal 0 0 sigKill fun _ => true

-- a manager kills the jobs of both users
example : (runOf smallConf (fun _ _ => true) twoArrays).bind (fun s =>
    (killAll.handle smallConf s.mbd 3 0).map fun result => result.1.pend) = some [] := by
  decide +kernel

theorem owner_isolation_twoArrays :
    ∃ s m' status, Reachable smallConf (Legibly anyStep) s ∧
      killAll.handle smallConf s.mbd 3 2 = some (m', status) ∧ s.mbd.pend = [1, 2, 3, 4] ∧
      m'.pend = [1, 2] ∧ Spares 2 s.mbd m' := by
  obtain ⟨s, executed, ⟨m', status⟩, done, pend, left⟩ :
      ∃ s ∈ runOf smallConf (rereading fun _ _ => true) twoArrays,
        ∃ result ∈ killAll.handle smallConf s.mbd 3 2, s.mbd.pend = [1, 2, 3, 4] ∧
          result.1.pend = [1, 2] := by
    decide +kernel
  have reached := legibly_of_runOf executed
  exact ⟨s, m', status, reached, done, pend, left,
    (owner_isolation reached (by decide)).1 killAll 3 m' status (by decide) done⟩

/--
The second user's name for a job ends its record and begins another, in which the
job is an element of the array of the first user.  The restart believes it.
-/
def forgedElement : List Label :=
  [submitAt 1 pairRequest,
    submitBy 2 2 { plainRequest with
      name := forgedName "JOB_NEW 1 2 3 1 3 1 3 1 2 2 1 1 0 0 1 1 0 1 0 0 \"\" \"" },
    .mbdRestart fun _ => 0]

theorem not_owner_isolation :
    (runOf smallConf (fun _ _ => true) forgedElement).map (fun s =>
        ((s.mbd.jobs 1).map (·.uid), s.mbd.arrayElementCnt 1,
          (killAll.handle smallConf s.mbd 3 2).map fun result => result.1.arrayElementCnt 1)) =
      some (some 1, 3, some 2) ∧
    ¬ ∀ (conf : Conf) (s : System), Reachable conf anyStep s → ∀ uid, conf.isManager uid = false →
      ∀ (request : JobRequest) (now : Time) (m' : MbdState) (status : Status), 0 < now →
        request.handle conf s.mbd now uid = some (m', status) → Spares uid s.mbd m' := by
  refine ⟨by decide +kernel, fun always => ?_⟩
  obtain ⟨s, executed, ⟨m', status⟩, done, before, after, job, found, foreign⟩ :
      ∃ s ∈ runOf smallConf (fun _ _ => true) forgedElement,
        ∃ result ∈ killAll.handle smallConf s.mbd 3 2, s.mbd.arrayElementCnt 1 = 3 ∧
          result.1.arrayElementCnt 1 = 2 ∧ ∃ job ∈ s.mbd.jobs 1, job.uid ≠ 2 := by
    decide +kernel
  have spared := always smallConf s (reachable_of_runOf executed) 2 (by decide) killAll 3 m' status
    (by decide) done
  have same := (spared 1 job found foreign).2
  rw [before, after] at same
  cases same

/-! ### A signal to every job -/

/--
In every state of a run whose restarts can read their manifests the scan fails no
assertion, and it does what one signal to each job of the user does exactly when
no job that the signal reaches belongs to somebody else or is already stopped, or
running, as the signal asks.
-/
theorem bulk_signal_eq_iff {conf : Conf} {s : System} (reached : Reachable conf (Legibly anyStep) s)
    {now : Time} (clock : 0 < now) (uid : Nat) (sig : Int) (sendOk : JobId → Bool) :
    (∃ m', signalJobsScan conf s.mbd now uid sig sendOk = some m') ∧
      (signalJobsScan conf s.mbd now uid sig sendOk = signalEach conf s.mbd now uid sig sendOk ↔
        ∀ j ∈ s.mbd.pend ++ s.mbd.run, ∀ job, s.mbd.jobs j = some job →
          overreached conf s.mbd uid sig (sendOk j) job = false) :=
  have wf := reached.sound.wf
  ⟨signalJobsScan_total clock wf, signalJobsScan_eq_iff clock wf⟩

def stopAndWait : List Label :=
  oneStop ++ [submitAt 6 plainRequest]

def staysWithin (conf : Conf) (m : MbdState) (uid : Nat) (sig : Int) : Bool :=
  (m.pend ++ m.run).all fun j => (m.jobs j).all fun job => !overreached conf m uid sig true job

theorem staysWithin_iff {conf : Conf} {m : MbdState} {uid : Nat} {sig : Int} :
    staysWithin conf m uid sig = true ↔ ∀ j ∈ m.pend ++ m.run, ∀ job, m.jobs j = some job →
      overreached conf m uid sig true job = false := by
  simp only [staysWithin, List.all_eq_true, Option.all_eq_true, Bool.not_eq_true']

theorem bulk_signal_eq_stopAndWait :
    ∃ s, Reachable smallConf (Legibly anyStep) s ∧ s.mbd.pend = [2] ∧ s.mbd.run = [1] ∧
      signalJobsScan smallConf s.mbd 7 1 sigKill (fun _ => true) =
        signalEach smallConf s.mbd 7 1 sigKill fun _ => true := by
  obtain ⟨s, executed, pend, run, within⟩ :
      ∃ s ∈ runOf smallConf (rereading fun _ _ => true) stopAndWait, s.mbd.pend = [2] ∧
        s.mbd.run = [1] ∧ staysWithin smallConf s.mbd 1 sigKill = true := by
    decide +kernel
  have reached := legibly_of_runOf executed
  have same := (bulk_signal_eq_iff reached (by decide : (0 : Time) < 7) 1 sigKill fun _ => true).2
  exact ⟨s, reached, pend, run, same.mpr (staysWithin_iff.mp within)⟩

def sentAndWritten (m : MbdState) : Nat × Nat :=
  (m.outbox.length, recordsOf m 1)

theorem bulk_signal_ne :
    (runOf smallConf (fun _ _ => true) oneStop).map (fun s =>
        (sentAndWritten s.mbd,
          (signalJobsScan smallConf s.mbd 6 1 sigStop fun _ => true).map sentAndWritten,
          (signalEach smallConf s.mbd 6 1 sigStop fun _ => true).map sentAndWritten)) =
      some ((0, 4), some (1, 5), some (0, 4)) ∧
    ¬ ∀ (conf : Conf) (s : System), Reachable conf anyStep s → ∀ (now : Time) (uid : Nat) (sig : Int)
        (sendOk : JobId → Bool), 0 < now →
      (∃ m', signalJobsScan conf s.mbd now uid sig sendOk = some m') ∧
        signalJobsScan conf s.mbd now uid sig sendOk = signalEach conf s.mbd now uid sig sendOk := by
  refine ⟨by decide +kernel, fun always => ?_⟩
  obtain ⟨s, executed, differ⟩ : ∃ s ∈ runOf smallConf (fun _ _ => true) oneStop,
      (signalJobsScan smallConf s.mbd 6 1 sigStop fun _ => true).map sentAndWritten ≠
        (signalEach smallConf s.mbd 6 1 sigStop fun _ => true).map sentAndWritten := by
    decide +kernel
  have same := (always smallConf s (reachable_of_runOf executed) 6 1 sigStop (fun _ => true)
    (by decide)).2
  exact differ (congrArg _ same)

/-! ### Priorities -/

/--
When priorities are set by owners only and every move goes to a queue whose
priority is at least that of the job, no job is ever above its queue.
-/
theorem priority_le_queue {conf : Conf} {s : System}
    (reached : Reachable conf (Legibly (Allows (ranksKept conf))) s) {j : JobId} {job : JobData}
    {queue : QueueName} {q : QueueConf} (found : s.mbd.jobs j = some job)
    (ofQueue : job.queue = some queue) (known : conf.findQueue queue = some q) :
    job.priority ≤ q.priority := by
  have below : BelowCeiling conf s.mbd :=
    Sound.mbd_invariant (BelowCeiling conf) id
      (fun _ job _ _ found => absurd found (Option.some_ne_none job).symm)
      (fun _ below effect => effect.belowCeiling below)
      (fun _ _ below registers => registers.belowCeiling below)
      (fun _ sound below replayed => (sound.restored replayed).belowCeiling below)
      (fun below => below) (sound_initial conf) reached
  exact below j job queue q found ofQueue known

def rankedConf : Conf :=
  { smallConf with
    queues :=
      [ { name := "normal", priority := 5, hosts := ["h1", "h2"], users := [] },
        { name := "low", priority := 1, hosts := ["h1", "h2"], users := [] } ]
    queues_nodup := by decide
    queue_hosts := by decide
    queue_names_fit := by decide }

def rankedAs (s : System) (j : JobId) (priority ceiling : Int) : Bool :=
  (s.mbd.jobs j).any fun job => job.queue.any fun queue => (rankedConf.findQueue queue).any fun q =>
    decide (job.priority = priority) && decide (q.priority = ceiling)

theorem rankedAs_iff {s : System} {j : JobId} {priority ceiling : Int} :
    rankedAs s j priority ceiling = true ↔ ∃ job, s.mbd.jobs j = some job ∧ ∃ queue,
      job.queue = some queue ∧ ∃ q, rankedConf.findQueue queue = some q ∧
        job.priority = priority ∧ q.priority = ceiling := by
  simp only [rankedAs, Option.any_eq_true, Bool.and_eq_true, decide_eq_true_eq]

def loweredMove : List Label :=
  [submitAt 1 plainRequest, .priority 2 1 1 1, .move 3 1 1 "low"]

theorem priority_le_queue_loweredMove :
    ∃ s job, Reachable rankedConf (Legibly (Allows (ranksKept rankedConf))) s ∧
      s.mbd.jobs 1 = some job ∧ job.queue = some "low" ∧ job.priority ≤ 1 := by
  obtain ⟨s, executed, job, found, ofQueue⟩ :
      ∃ s ∈ runOf rankedConf (rereading (mayRead (ranksKept rankedConf))) loweredMove,
        ∃ job ∈ s.mbd.jobs 1, job.queue = some "low" := by
    decide +kernel
  have reached : Reachable rankedConf (Legibly (Allows (ranksKept rankedConf))) s :=
    steps_of_execute (fun _ _ _ => legibly_of_rereading
      (allows_of_mayRead (.inr fun _ _ => trivial))) executed
  exact ⟨s, job, reached, found, ofQueue, priority_le_queue reached found ofQueue rfl⟩

def plainMove : List Label :=
  [submitAt 1 plainRequest, .move 2 1 1 "low"]

def usersOnly (conf : Conf) (_ : System) : Label → Prop
  | .submit _ uid _ _ | .move _ uid _ _ | .priority _ uid _ _ => conf.isManager uid = false
  | _ => False

theorem priority_above_queue :
    (runOf rankedConf (fun _ _ => true) plainMove).map
        (fun s => (s.mbd.jobs 1).map fun job => (job.queue, job.priority)) =
      some (some (some "low", 5)) ∧
      ¬ ∀ (conf : Conf) (s : System), Reachable conf (usersOnly conf) s → ∀ j job queue q,
        s.mbd.jobs j = some job → job.queue = some queue → conf.findQueue queue = some q →
          job.priority ≤ q.priority := by
  refine ⟨by decide +kernel, fun always => ?_⟩
  obtain ⟨s, executed, ranked⟩ : ∃ s ∈ runOf rankedConf (fun _ _ => true) plainMove,
      rankedAs s 1 5 1 = true := by decide +kernel
  obtain ⟨job, found, queue, ofQueue, q, known, priority, ceiling⟩ := rankedAs_iff.mp ranked
  have user : rankedConf.isManager 1 = false := by decide
  have users : ∀ label ∈ plainMove, ∀ s, usersOnly rankedConf s label := by
    simpa [plainMove, submitAt, usersOnly] using fun _ => user
  have reached : Reachable rankedConf (usersOnly rankedConf) s :=
    steps_of_execute (fun label member s _ => users label member s) executed
  have bound := always rankedConf s reached 1 job queue q found ofQueue known
  omega

end LavaLite.Cluster
