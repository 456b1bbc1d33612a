import LavaLite.Mbd.Restart

/-
The CPUs of a host do not run out: the scheduler charges a host only for what it
has, as long as no job asks for a negative number.
-/

namespace LavaLite.Mbd

open Base Batch Kernel

def CpusCovered (m : MbdState) : Prop :=
  ∀ h, 0 ≤ (m.hosts h).freeCpu

def CpusAsked (request : Request) : Prop :=
  0 ≤ request.res.numCpus

theorem Conf.totalCpu_nonneg {conf : Conf} (hosts : ∀ h ∈ conf.hosts, 0 ≤ h.totalCpu)
    (h : HostName) : 0 ≤ (conf.hostConf h).totalCpu := by
  unfold Conf.hostConf
  cases found : conf.findHost h with
  | none => exact Int.le_refl 0
  | some hc => exact hosts hc (List.mem_of_find?_eq_some found)

variable {conf : Conf} {permits : Permit} {m m' : MbdState} {j : JobId} {job job' : JobData}
  {onHost : HostChange} {onQueue : QueueChange} {pools : PoolName → Int} {records : List Event}
  {sent : Outbox} {queue : QueueName} {plan : List HostName}

theorem Change.cpusCovered (change : Change m m' j job job' onHost onQueue pools records sent)
    (covered : CpusCovered m) (freed : ∀ h a b, onHost h a b → a.freeCpu ≤ b.freeCpu) :
    CpusCovered m' :=
  fun h => Int.le_trans (covered h) (freed h _ _ (change.hosts h))

theorem Change.cpusCovered_reset
    (change : Change m m' j job job' (hostsReset job) onQueue pools records sent)
    (asked : CpusAsked job.request) (covered : CpusCovered m) : CpusCovered m' := by
  refine change.cpusCovered covered fun h a b relates => ?_
  unfold hostsReset at relates
  split at relates
  · have freed := count_resetHost (k := .freeCpu) ⟨nofun, nofun⟩ relates
    simp only [HostData.count, hostCount] at freed
    have nonneg : 0 ≤ job.res.numCpus := asked
    omega
  · exact Int.le_of_eq (congrArg HostData.freeCpu relates.symm)

theorem Change.cpusCovered_charged {text : String} {now : Time} {first : HostName}
    {gpus : List GpuId} (change : Change m m' j job (dispatchedJob job plan text now)
      (hostsCharged (dispatchedJob job plan text now) first gpus) onQueue pools records sent)
    (planned : PlanFor conf m job queue plan) (covered : CpusCovered m) : CpusCovered m' := by
  intro h
  have relates := change.hosts h
  unfold hostsCharged at relates
  have hosts : (dispatchedJob job plan text now).hosts = plan := List.take_length
  have marked : (hostsAssigned first gpus h (m.hosts h)).freeCpu = (m.hosts h).freeCpu :=
    count_hostsAssigned (k := .freeCpu) first gpus h (m.hosts h)
  rw [hosts] at relates
  by_cases uses : h ∈ plan
  · rw [if_pos uses] at relates
    have affords : Affords .freeCpu (dispatchedJob job plan text now)
        (hostsAssigned first gpus h (m.hosts h)) := ⟨nofun, nofun⟩
    have charged := count_chargeHost affords rfl
    have enough := (planned.suits uses).cpus
    have asks : (dispatchedJob job plan text now).res.numCpus = job.res.numCpus := rfl
    rw [← relates] at charged
    simp only [HostData.count, hostCount, asks, marked] at charged
    omega
  · rw [if_neg uses] at relates
    rw [relates, marked]
    exact covered h

theorem Effect.cpusCovered (asked : EveryJob CpusAsked m) (covered : CpusCovered m)
    (effect : Effect conf permits m m') : CpusCovered m' := by
  have kept : ∀ h (a b : HostData), hostsKept h a b → a.freeCpu ≤ b.freeCpu :=
    fun _ _ _ same => Int.le_of_eq (congrArg HostData.freeCpu same.symm)
  cases effect with
  | frame framed =>
    intro h
    rw [framed.hosts h]
    exact covered h
  | ackReply _ _ sends | ackFinish _ _ sends =>
    subst sends
    exact covered
  | compact _ compacted =>
    obtain ⟨_, _, result⟩ := manifestRebuild_spec compacted
    rw [result]
    exact covered
  | note _ change | signalSent _ _ change | hold _ _ _ change | unhold _ _ _ change
  | kill _ _ _ _ change | move _ _ _ _ _ change | priority _ _ change | fork _ _ _ _ _ change =>
    exact change.cpusCovered covered kept
  | @stranded _ _ _ _ first gpus _ _ _ _ _ _ change =>
    refine change.cpusCovered covered fun h a b marked => ?_
    have same : (hostsAssigned first gpus h a).freeCpu = a.freeCpu :=
      count_hostsAssigned (k := .freeCpu) first gpus h a
    rw [marked, same]
  | dispatch _ _ _ _ planned _ _ _ change => exact change.cpusCovered_charged planned covered
  | release _ _ _ _ _ _ _ change | finish _ _ _ _ _ _ _ change =>
    exact change.cpusCovered_reset (asked _ _ change.found) covered
  | stopped _ _ _ change | continued _ _ _ change =>
    refine change.cpusCovered covered fun h a b counted => ?_
    rw [counted]
    split <;> exact Int.le_refl _

theorem Registers.cpusCovered {ws : WireJobSubmit} (registers : Registers conf ws m m')
    (covered : CpusCovered m) : CpusCovered m' := by
  refine registers.keeps CpusCovered ?framed ?committed (fun covered => covered) covered
  case framed =>
    intro m m' covered framed h
    rw [framed.hosts h]
    exact covered h
  case committed =>
    intro m m' q job covered commit h
    rw [commit.hosts]
    exact covered h

theorem Restored.cpusAsked (restored : Restored conf m m') (asked : EveryJob CpusAsked m) :
    EveryJob CpusAsked m' := by
  intro j replayed found
  obtain ⟨job, before, mirror⟩ := restored.mirror found
  have same : replayed.res.numCpus = job.res.numCpus := congrArg Core.numCpus mirror.core
  have nonneg : 0 ≤ job.res.numCpus := asked j job before
  unfold CpusAsked
  exact same ▸ nonneg

theorem Restored.cpusCovered (restored : Restored conf m m') (wf : Listed m)
    (asked : EveryJob CpusAsked m) (balanced : HostBalanced conf .freeCpu m)
    (rebalanced : HostBalanced conf .freeCpu m') (covered : CpusCovered m) : CpusCovered m' := by
  intro h
  have less := restored.used_le (k := .freeCpu) wf rfl h fun {j job} found => by
    have nonneg : 0 ≤ job.res.numCpus := asked j job found
    unfold hostShare
    split
    · simpa [hostCount] using nonneg
    · exact Int.le_refl 0
  have before := balanced h
  have after := rebalanced h
  have free := covered h
  simp only [HostData.count] at before after
  omega

end LavaLite.Mbd
