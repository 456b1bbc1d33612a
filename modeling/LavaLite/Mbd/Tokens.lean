import LavaLite.Mbd.Tally

/-
Token pools: what is free and what the running jobs hold is the configured total, and jobs
that name a pool once do not overdraw it.  `job_parse_tokens` takes more than `name=N` lists.
-/

namespace LavaLite.Mbd

open Base Batch Kernel List

def tokensOf (p : PoolName) (tokens : List JobToken) : Int :=
  tally (fun t => if t.name = p then t.count else 0) tokens

def tokenShare (p : PoolName) (job : JobData) : Int :=
  if job.listId = .run then tokensOf p job.res.tokens else 0

def TokensBalanced (conf : Conf) (m : MbdState) : Prop :=
  ∀ p, (conf.findPool p).isSome = true → m.pools p + openTally m (tokenShare p) = conf.poolTotal p

def TokensCovered (conf : Conf) (m : MbdState) : Prop :=
  ∀ p, (conf.findPool p).isSome = true → 0 ≤ m.pools p

def TokensPositive (request : Request) : Prop :=
  ∀ t ∈ request.res.tokens, 0 < t.count

def TokensDistinct (request : Request) : Prop :=
  (request.res.tokens.map JobToken.name).Nodup

/-! ### The lists -/

variable {conf : Conf} {p : PoolName} {tokens : List JobToken} {junk : Nat → Int}
  {texts : List String} {ws : WireJobSubmit} {job : JobData}

theorem tokensOf_nonneg (positive : ∀ t ∈ tokens, 0 < t.count) : 0 ≤ tokensOf p tokens := by
  refine tally_nonneg fun t member => ?_
  have more := positive t member
  split <;> omega

theorem changeTokens_cons (known : (conf.findPool p).isSome = true) (sign : Int) (t : JobToken)
    (rest : List JobToken) (pools : PoolName → Int) :
    ∃ pools', changeTokens conf sign (t :: rest) pools = changeTokens conf sign rest pools' ∧
      pools' p = pools p + sign * if t.name = p then t.count else 0 := by
  refine ⟨_, foldl_cons .., ?_⟩
  by_cases named : t.name = p
  · subst named
    obtain ⟨pc, found⟩ := Option.isSome_iff_exists.mp known
    simp [found]
  · rw [if_neg named, Int.mul_zero, Int.add_zero]
    cases conf.findPool t.name with
    | some _ => exact Function.update_of_ne (Ne.symm named) _ _
    | none => rfl

theorem changeTokens_apply (known : (conf.findPool p).isSome = true) (sign : Int) :
    ∀ (tokens : List JobToken) (pools : PoolName → Int),
      changeTokens conf sign tokens pools p = pools p + sign * tokensOf p tokens := by
  intro tokens
  induction tokens with
  | nil => simp [changeTokens, tokensOf]
  | cons t rest ih =>
    intro pools
    obtain ⟨pools', turn, first⟩ := changeTokens_cons known sign t rest pools
    have both : tokensOf p (t :: rest) = (if t.name = p then t.count else 0) + tokensOf p rest :=
      tally_cons
    rw [turn, ih, first, both, Int.mul_add, Int.add_assoc]

theorem tokensOf_le {pools : PoolName → Int} (covered : 0 ≤ pools p)
    (distinct : (tokens.map JobToken.name).Nodup)
    (available : ∀ t ∈ tokens, t.count ≤ pools t.name) : tokensOf p tokens ≤ pools p := by
  induction tokens with
  | nil => exact covered
  | cons t rest ih =>
    rw [map_cons, nodup_cons] at distinct
    have others := ih distinct.2 fun t' member => available t' (mem_cons_of_mem t member)
    rw [tokensOf, tally_cons]
    by_cases named : t.name = p
    · have none : tally (fun t => if t.name = p then t.count else 0) rest = 0 := by
        refine tally_eq_zero fun t' member => if_neg fun same => distinct.1 ?_
        rw [named, ← same]
        exact List.mem_map_of_mem member
      have first := available t mem_cons_self
      rw [none, if_pos named]
      rw [named] at first
      omega
    · rw [if_neg named, Int.zero_add]
      exact others

theorem parseTokens_positive (parsed : parseTokens conf junk texts = .ok tokens) :
    ∀ t ∈ tokens, 0 < t.count := by
  induction texts generalizing tokens with
  | nil =>
    intro t member
    cases parsed
    cases member
  | cons tok rest ih =>
    unfold parseTokens at parsed
    split at parsed
    · cases parsed
    next name value _ =>
      dsimp only at parsed
      split at parsed
      · cases parsed
      next positive =>
        split at parsed
        · cases parsed
        · split at parsed
          · cases parsed
          next later others =>
            cases parsed
            intro t member
            rcases mem_cons.mp member with rfl | member
            · exact Int.not_le.mp positive
            · exact ih others t member

def poolNames (tokenpool : String) : List PoolName :=
  (strtok (fun c => c = ',') (strlcpy 1024 tokenpool)).map fun tok =>
    strlcpy 64 (String.ofList (tok.toList.takeWhile fun c => c ≠ '='))

theorem splitEq_fst {text name value : List Char} (split : splitEq text = some (name, value)) :
    text.takeWhile (fun c => c ≠ '=') = name := by
  induction text generalizing name with
  | nil => cases split
  | cons c rest ih =>
    by_cases isEq : c = '='
    · subst isEq
      rw [splitEq] at split
      cases split
      rfl
    · rw [splitEq] at split
      · obtain ⟨⟨first, last⟩, found, both⟩ := Option.map_eq_some_iff.mp split
        cases both
        rw [takeWhile_cons_of_pos (by simp [isEq]), ih found]
      · exact fun same => isEq same

theorem parseTokens_names (parsed : parseTokens conf junk texts = .ok tokens) :
    tokens.map JobToken.name = texts.map fun tok =>
      strlcpy 64 (String.ofList (tok.toList.takeWhile fun c => c ≠ '=')) := by
  induction texts generalizing tokens with
  | nil =>
    cases parsed
    rfl
  | cons tok rest ih =>
    unfold parseTokens at parsed
    split at parsed
    · cases parsed
    next name value cut =>
      dsimp only at parsed
      split at parsed
      · cases parsed
      · split at parsed
        · cases parsed
        · split at parsed
          · cases parsed
          next later others =>
            cases parsed
            rw [map_cons, map_cons, ih others, splitEq_fst cut]

theorem Prepared.tokensPositive (prepared : Prepared conf ws job) : TokensPositive job.request := by
  obtain ⟨junk, parsed⟩ := prepared.tokens
  exact parseTokens_positive parsed

theorem Prepared.tokensDistinct (prepared : Prepared conf ws job)
    (once : (poolNames ws.tokenpool).Nodup) : TokensDistinct job.request := by
  obtain ⟨junk, parsed⟩ := prepared.tokens
  have names : job.res.tokens.map JobToken.name = poolNames ws.tokenpool :=
    parseTokens_names parsed
  rw [← names] at once
  exact once

/-! ### The pools -/

variable {permits : Permit} {m m' : MbdState} {j : JobId} {job' : JobData}
  {onHost : HostChange} {onQueue : QueueChange} {pools : PoolName → Int} {records : List Event}
  {sent : Outbox} {queue : QueueName}

theorem tokenShare_open (p : PoolName) : OpenWeight (tokenShare p) := by
  intro job ended
  simp [tokenShare, ended]

theorem tokenShare_of_ne (away : job.listId ≠ .run) : tokenShare p job = 0 :=
  if_neg away

theorem tokenShare_of_run (running : job.listId = .run) :
    tokenShare p job = tokensOf p job.res.tokens :=
  if_pos running

theorem Change.tokensBalanced
    (change : Change m m' j job job' onHost onQueue pools records sent) (wf : Listed m)
    (balanced : TokensBalanced conf m) (counted : ∀ p, (conf.findPool p).isSome = true →
      pools p = m.pools p + tokenShare p job - tokenShare p job') : TokensBalanced conf m' := by
  intro p known
  have total := balanced p known
  rw [change.openTally wf (tokenShare_open p), change.pools, counted p known]
  omega

theorem Change.tokensBalanced_kept
    (change : Change m m' j job job' onHost onQueue m.pools records sent) (wf : Listed m)
    (balanced : TokensBalanced conf m) (share : ∀ p, tokenShare p job' = tokenShare p job) :
    TokensBalanced conf m' := by
  refine change.tokensBalanced wf balanced fun p _ => ?_
  rw [share]
  omega

theorem Change.res (change : Change m m' j job job' onHost onQueue pools records sent) :
    job'.res = job.res :=
  congrArg Request.res change.request

theorem Change.tokensBalanced_taken
    (change : Change m m' j job job' onHost onQueue (changeTokens conf (-1) job.res.tokens m.pools)
      records sent) (wf : Listed m) (balanced : TokensBalanced conf m)
    (before : job.listId ≠ .run) (after : job'.listId = .run) : TokensBalanced conf m' := by
  refine change.tokensBalanced wf balanced fun p known => ?_
  rw [changeTokens_apply known, tokenShare_of_ne before, tokenShare_of_run after, change.res]
  omega

theorem Change.tokensBalanced_returned
    (change : Change m m' j job job' onHost onQueue (changeTokens conf 1 job.res.tokens m.pools)
      records sent) (wf : Listed m) (balanced : TokensBalanced conf m)
    (before : job.listId = .run) (after : job'.listId ≠ .run) : TokensBalanced conf m' := by
  refine change.tokensBalanced wf balanced fun p known => ?_
  rw [changeTokens_apply known, tokenShare_of_run before, tokenShare_of_ne after]
  omega

theorem Frame.tokensBalanced (framed : Frame m m') (balanced : TokensBalanced conf m) :
    TokensBalanced conf m' := by
  intro p known
  rw [framed.openTally, framed.pools]
  exact balanced p known

theorem Effect.tokensBalanced (wf : Wf conf m) (balanced : TokensBalanced conf m)
    (effect : Effect conf permits m m') : TokensBalanced conf m' := by
  have pendingAway : ListId.pend ≠ .run := by decide
  cases effect with
  | frame framed => exact framed.tokensBalanced balanced
  | ackReply _ _ sends | ackFinish _ _ sends =>
    subst sends
    exact balanced
  | note _ change | stranded _ _ _ _ _ change | signalSent _ _ change | hold _ _ _ change
  | unhold _ _ _ change | move _ _ _ _ _ change | priority _ _ change | fork _ _ _ _ _ change
  | stopped _ _ _ change | continued _ _ _ change =>
    exact change.tokensBalanced_kept wf.toListed balanced fun _ => rfl
  | dispatch pending _ _ _ _ _ _ _ change =>
    exact change.tokensBalanced_taken wf.toListed balanced (pending.trans_ne pendingAway) rfl
  | kill pending _ _ _ change =>
    refine change.tokensBalanced_kept wf.toListed balanced fun p => ?_
    rw [tokenShare_of_ne (pending.trans_ne pendingAway)]
    exact tokenShare_of_ne nofun
  | release running _ _ _ result _ _ change =>
    refine change.tokensBalanced_returned wf.toListed balanced running ?_
    rcases result with rfl | rfl <;> exact nofun
  | finish running _ _ _ _ _ _ change =>
    exact change.tokensBalanced_returned wf.toListed balanced running nofun
  | compact _ compacted =>
    intro p known
    have pools : m'.pools = m.pools := by
      obtain ⟨_, _, result⟩ := manifestRebuild_spec compacted
      rw [result]
    rw [compact_openTally compacted wf, pools]
    exact balanced p known

theorem Commit.tokensBalanced (commit : Commit conf ws m m' queue job) (wf : Wf conf m)
    (balanced : TokensBalanced conf m) : TokensBalanced conf m' := by
  intro p known
  have away := commit.prepared.list.trans_ne (by decide : ListId.pend ≠ .run)
  rw [commit.openTally wf.toListed (tokenShare_open p), tokenShare_of_ne away, commit.pools,
    ← balanced p known]
  omega

theorem Registers.tokensBalanced (registers : Registers conf ws m m') (wf : Wf conf m)
    (balanced : TokensBalanced conf m) : TokensBalanced conf m' :=
  registers.keeps_of_wf (TokensBalanced conf)
    (fun _ balanced framed => framed.tokensBalanced balanced)
    (fun wf balanced commit => commit.tokensBalanced wf balanced) (fun _ balanced => balanced)
    wf balanced

theorem TokensBalanced.le_total (balanced : TokensBalanced conf m) (wf : Listed m)
    (positive : EveryJob TokensPositive m) (known : (conf.findPool p).isSome = true) :
    m.pools p ≤ conf.poolTotal p := by
  have total := balanced p known
  have held : 0 ≤ openTally m (tokenShare p) := by
    refine openTally_nonneg wf fun found => ?_
    unfold tokenShare
    split
    · exact tokensOf_nonneg (positive _ _ found)
    · exact Int.le_refl 0
  omega

theorem Effect.pools_cases (effect : Effect conf permits m m') :
    m'.pools = m.pools ∨ ∃ j job, m.jobs j = some job ∧
      (m'.pools = changeTokens conf 1 job.res.tokens m.pools ∨ tokensAvailable conf m job = true ∧
          m'.pools = changeTokens conf (-1) job.res.tokens m.pools) := by
  cases effect with
  | frame framed | note _ framed | stranded _ _ _ _ _ framed | signalSent _ _ framed
  | hold _ _ _ framed | unhold _ _ _ framed | kill _ _ _ _ framed | move _ _ _ _ _ framed
  | priority _ _ framed | fork _ _ _ _ _ framed | stopped _ _ _ framed | continued _ _ _ framed =>
    exact Or.inl framed.pools
  | ackReply _ _ sends | ackFinish _ _ sends => exact Or.inl (by rw [sends]; rfl)
  | dispatch _ _ _ _ _ _ tokens _ change =>
    exact Or.inr ⟨_, _, change.found, Or.inr ⟨tokens, change.pools⟩⟩
  | release _ _ _ _ _ _ _ change | finish _ _ _ _ _ _ _ change =>
    exact Or.inr ⟨_, _, change.found, Or.inl change.pools⟩
  | compact _ compacted =>
    obtain ⟨_, _, result⟩ := manifestRebuild_spec compacted
    exact Or.inl (by rw [result])

theorem Effect.tokensCovered (positive : EveryJob TokensPositive m)
    (distinct : EveryJob TokensDistinct m) (covered : TokensCovered conf m)
    (effect : Effect conf permits m m') : TokensCovered conf m' := by
  intro p known
  have before := covered p known
  rcases effect.pools_cases with same | ⟨j, job, found, returned | ⟨available, taken⟩⟩
  · rw [same]
    exact before
  · have given : 0 ≤ tokensOf p job.res.tokens := tokensOf_nonneg (positive _ _ found)
    rw [returned, changeTokens_apply known]
    omega
  · have each : ∀ t ∈ job.res.tokens, t.count ≤ m.pools t.name := by
      intro t member
      have checked := List.all_eq_true.mp available t member
      split at checked
      · exact of_decide_eq_true checked
      · cases checked
    have enough : tokensOf p job.res.tokens ≤ m.pools p := tokensOf_le before (distinct _ _ found) each
    rw [taken, changeTokens_apply known]
    omega

theorem Registers.tokensCovered (registers : Registers conf ws m m')
    (covered : TokensCovered conf m) : TokensCovered conf m' := by
  refine registers.keeps (TokensCovered conf) ?framed ?committed (fun covered => covered) covered
  case framed =>
    intro m m' covered framed p known
    rw [framed.pools]
    exact covered p known
  case committed =>
    intro m m' q job covered commit p known
    rw [commit.pools]
    exact covered p known

/-! ### The texts -/

open Option

/-- `name=N` for a configured pool and a positive number that fits an `int`. -/
inductive IsItem (conf : Conf) : List Char → JobToken → Prop where
  | mk {name value : List Char} {n : Int} (plain : '=' ∉ name) (number : IsInteger value n)
      (positive : 1 ≤ n) (fits : n ≤ intMax)
      (known : (conf.findPool (String.ofList name)).isSome = true) :
      IsItem conf (name ++ '=' :: value) { name := String.ofList name, count := n }

/-- A text is empty or a list of items separated by commas; the tokens are theirs, in order. -/
def TokenSpec (conf : Conf) (text : List Char) (tokens : List JobToken) : Prop :=
  (text = [] ∧ tokens = []) ∨
    ∃ fields, fields ≠ [] ∧ (∀ field ∈ fields, ',' ∉ field) ∧ text = [','].intercalate fields ∧
      List.Forall₂ (IsItem conf) fields tokens

/-- The text is read as the language says, whatever the uninitialised `count` holds. -/
def ReadAsSpecified (conf : Conf) (text : String) : Prop :=
  ∀ junk tokens, jobParseTokens conf junk text = .ok tokens ↔ TokenSpec conf text.toList tokens

/-- A field the loop turns down: no `=`, a number that is not positive, or no such pool. -/
def RefusedField (conf : Conf) (field : List Char) : Prop :=
  '=' ∉ field ∨ ∃ name value, '=' ∉ name ∧ field = name ++ '=' :: value ∧
    ((∃ n, llAtoi value = some n ∧ n ≤ 0) ∨ conf.findPool (String.ofList name) = none)

def tokenFields (text : String) : List (List Char) :=
  strtokAux (fun c => c = ',') [] text.toList

/-! ### One field -/

theorem splitEq_plain {field : List Char} (plain : '=' ∉ field) : splitEq field = none := by
  induction field with
  | nil => rfl
  | cons c field ih =>
    obtain ⟨other, rest⟩ := not_or.mp (fun either => plain (mem_cons.mpr either))
    rw [splitEq, ih rest]
    · rfl
    · exact fun same => other same.symm

theorem splitEq_first {name : List Char} (plain : '=' ∉ name) (value : List Char) :
    splitEq (name ++ '=' :: value) = some (name, value) := by
  induction name with
  | nil => rfl
  | cons c name ih =>
    obtain ⟨other, rest⟩ := not_or.mp (fun either => plain (mem_cons.mpr either))
    rw [cons_append, splitEq, ih rest]
    · rfl
    · exact fun same => other same.symm

theorem field_cases (field : List Char) :
    '=' ∉ field ∨ ∃ name value, '=' ∉ name ∧ field = name ++ '=' :: value := by
  by_cases member : '=' ∈ field
  · obtain ⟨name, value, same, plain⟩ := eq_append_cons_of_mem member
    exact .inr ⟨name, value, plain, same⟩
  · exact .inl member

theorem Conf.findPool_fits {name : PoolName} (known : (conf.findPool name).isSome = true) :
    strlcpy 64 name = name := by
  obtain ⟨pool, found⟩ := isSome_iff_exists.mp known
  have isPool : pool.name = name := by simpa using find?_some found
  apply strlcpy_of_fits
  rw [← isPool]
  exact conf.pool_names_fit pool (mem_of_find?_eq_some found)

/-! ### The loop -/

variable {fields : List (List Char)}

theorem items_ne_nil (items : List.Forall₂ (IsItem conf) fields tokens) :
    ∀ field ∈ fields, field ≠ [] := by
  induction items with
  | nil => exact forall_mem_nil _
  | cons item _ ih =>
    refine forall_mem_cons.mpr ⟨?_, ih⟩
    cases item
    exact append_ne_nil_of_right_ne_nil _ (cons_ne_nil _ _)

theorem parseTokens_items (items : List.Forall₂ (IsItem conf) fields tokens) :
    parseTokens conf junk (fields.map String.ofList) = .ok tokens := by
  induction items with
  | nil => rfl
  | cons item _ ih =>
    cases item with
    | @mk name value n plain number positive fits known =>
      obtain ⟨pool, found⟩ := isSome_iff_exists.mp known
      have count : ¬n ≤ 0 := by omega
      rw [map_cons, parseTokens, String.toList_ofList, splitEq_first plain]
      have read : llAtoi value = some n :=
        (llAtoi_of_isInteger number).trans (if_pos ⟨Int.le_trans (by decide) positive, fits⟩)
      simp only [read, getD_some, if_neg count, found, ih, Conf.findPool_fits known]

theorem parseTokens_refused (junk : Nat → Int) {field : List Char} (member : field ∈ fields)
    (refused : RefusedField conf field) :
    ∃ e, parseTokens conf junk (fields.map String.ofList) = .error e := by
  induction fields with
  | nil => cases member
  | cons first rest ih =>
    rw [map_cons, parseTokens, String.toList_ofList]
    rcases mem_cons.mp member with rfl | later
    · rcases refused with plain | ⟨name, value, plain, rfl, reason⟩
      · rw [splitEq_plain plain]
        exact ⟨_, rfl⟩
      · rw [splitEq_first plain]
        dsimp only
        split
        · exact ⟨_, rfl⟩
        next positive =>
          rcases reason with ⟨n, read, low⟩ | unknown
          · rw [read, getD_some] at positive
            exact absurd low positive
          · rw [unknown]
            exact ⟨_, rfl⟩
    · obtain ⟨e, stops⟩ := ih later
      rw [stops]
      split
      · exact ⟨_, rfl⟩
      · dsimp only
        split
        · exact ⟨_, rfl⟩
        · split
          · exact ⟨_, rfl⟩
          · exact ⟨_, rfl⟩

/-- With a positive value left in `count`, the loop gets through fields it does not turn down. -/
theorem parseTokens_of_not_refused (fine : ∀ field ∈ fields, ¬RefusedField conf field) :
    ∃ tokens, parseTokens conf (fun _ => 1) (fields.map String.ofList) = .ok tokens := by
  induction fields with
  | nil => exact ⟨[], rfl⟩
  | cons first rest ih =>
    obtain ⟨here, later⟩ := forall_mem_cons.mp fine
    obtain ⟨tokens, read⟩ := ih later
    obtain ⟨split, sound⟩ := not_or.mp here
    rcases field_cases first with plain | ⟨name, value, plain, rfl⟩
    · exact absurd plain split
    · have known : conf.findPool (String.ofList name) ≠ none :=
        fun unknown => sound ⟨name, value, plain, rfl, .inr unknown⟩
      obtain ⟨pool, found⟩ := ne_none_iff_exists'.mp known
      have positive : ¬(llAtoi value).getD 1 ≤ 0 := by
        cases number : llAtoi value with
        | none => decide
        | some n =>
          intro low
          exact sound ⟨name, value, plain, rfl, .inl ⟨n, number, low⟩⟩
      rw [map_cons, parseTokens, String.toList_ofList, splitEq_first plain]
      simp only [if_neg positive, found, read]
      exact ⟨_, rfl⟩

theorem jobParseTokens_eq {text : String} (fits : text.toList.length < 256) :
    jobParseTokens conf junk text = parseTokens conf junk ((tokenFields text).map String.ofList) := by
  have whole : text.toList.length < 1024 := Nat.lt_of_lt_of_le fits (by decide)
  rw [jobParseTokens, strlcpy_of_fits whole]
  rfl

theorem TokenSpec.parsed {text : String} (spec : TokenSpec conf text.toList tokens)
    (fits : text.toList.length < 256) (junk : Nat → Int) : jobParseTokens conf junk text = .ok tokens := by
  rw [jobParseTokens_eq fits, tokenFields]
  rcases spec with ⟨empty, rfl⟩ | ⟨fields, _, plain, joined, items⟩
  · rw [empty]
    rfl
  · have proper : ∀ field ∈ fields, field ≠ [] ∧ ∀ c ∈ field, decide (c = ',') = false := by
      intro field member
      refine ⟨?_, fun c inField => ?_⟩
      · exact items_ne_nil items field member
      · refine decide_eq_false fun same => plain field member ?_
        rw [← same]
        exact inField
    rw [joined, strtokAux_intercalate (by decide) proper]
    exact parseTokens_items items

end LavaLite.Mbd
