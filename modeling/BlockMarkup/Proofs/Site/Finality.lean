import BlockMarkup.Files.Disk
import BlockMarkup.Proofs.Site.Agreement
import Mathlib.Tactic

/-!
# Failures are final

The stages of the library may stand in a pipeline in any order and any number of times, so that each
of them meets drafts in states it was not written for. Here a run of such a pipeline on a disk is
cut into moments, one draft going through one stage between two of them, and the moments of a run
are shown to share an invariant: a draft that has failed has neither a tree nor a bundle, and every
draft is still the one of the same source. From the moment on at which a draft has failed it stays
as it is, and the stages that come to it leave the disk alone.
-/

namespace BlockMarkup

namespace Draft

/-- What a draft is made from. -/
def origin (d : Draft) : Path × Path × String := (d.path, d.relative, d.source)

/-- Whether a draft has lost its tree and its bundle, if it has failed. -/
def IsBare (d : Draft) : Prop := d.hasFailed = true → d.document = none ∧ d.bundle = none

/-- Whether a draft may come from another by one stage. -/
structure Follows (d result : Draft) : Prop where
  origin : result.origin = d.origin
  isBare : result.IsBare

variable {d : Draft}

theorem isBare_of_ok
    (hd : d.failure = none) :
    d.IsBare := by
  intro hfailed
  simp [hasFailed, hd] at hfailed

theorem follows_fail
    (d : Draft)
    (e : Failure) :
    d.Follows (d.fail e) :=
  ⟨rfl, fun _ => ⟨rfl, rfl⟩⟩

theorem follows_parse
    (hd : d.failure = none) :
    d.Follows d.parse := by
  rw [parse]
  split
  · exact ⟨rfl, isBare_of_ok hd⟩
  · exact d.follows_fail _

theorem follows_nest
    (hd : d.failure = none)
    (document : Document) :
    d.Follows (d.nest document) := by
  rw [nest]
  split
  · exact ⟨rfl, isBare_of_ok hd⟩
  · exact d.follows_fail _

theorem follows_validate
    (hd : d.failure = none)
    (document : Document)
    (options : CompileOptions) :
    d.Follows (d.validate document options) := by
  simp only [validate]
  split
  · exact ⟨rfl, isBare_of_ok hd⟩
  · exact d.follows_fail _

theorem follows_emit
    (hd : d.failure = none)
    (document : Document)
    (options : CompileOptions) :
    d.Follows (d.emit document options) :=
  ⟨rfl, isBare_of_ok hd⟩

end Draft

namespace Stage

section ForEach

variable {step : Draft → DiskM (Except Halt Draft)} {d result : Draft} {disk disk' : Disk}
  (rest : List Draft)

/-- A draft that has failed is passed over. -/
theorem forEach_of_failed
    (hfailed : d.hasFailed = true)
    (disk : Disk) :
    (forEach step (d :: rest)).run disk =
      ((d :: ((forEach step rest).run disk).1.1, ((forEach step rest).run disk).1.2),
        ((forEach step rest).run disk).2) := by
  rw [forEach, if_pos hfailed]
  rfl

/-- A halt leaves this draft and those behind it as they were. -/
theorem forEach_of_error
    {halt : Halt}
    (hfailed : d.hasFailed = false)
    (hstep : (step d).run disk = (.error halt, disk')) :
    (forEach step (d :: rest)).run disk = ((d :: rest, some halt), disk') := by
  rw [forEach, if_neg (by simp [hfailed]), StateT.run_bind, hstep]
  rfl

/-- A draft that is dealt with makes room for the next. -/
theorem forEach_of_ok
    (hfailed : d.hasFailed = false)
    (hstep : (step d).run disk = (.ok result, disk')) :
    (forEach step (d :: rest)).run disk =
      ((result :: ((forEach step rest).run disk').1.1, ((forEach step rest).run disk').1.2),
        ((forEach step rest).run disk').2) := by
  rw [forEach, if_neg (by simp [hfailed]), StateT.run_bind, hstep]
  rfl

theorem length_forEach
    (drafts : List Draft)
    (disk : Disk) :
    ((forEach step drafts).run disk).1.1.length = drafts.length := by
  induction drafts generalizing disk with
  | nil => rfl
  | cons d rest ih =>
      cases hfailed : d.hasFailed with
      | true => simp [forEach_of_failed rest hfailed, ih]
      | false =>
          rcases hstep : (step d).run disk with ⟨halt | result, disk'⟩
          · simp [forEach_of_error rest hfailed hstep]
          · simp [forEach_of_ok rest hfailed hstep, ih]

/-- What a run leaves, with one more draft in the batch. -/
def withDraft
    (i : Nat)
    (d : Draft)
    (left : Progress × Disk) : Progress × Disk :=
  ((left.1.1.insertIdx i d, left.1.2), left.2)

/-- A draft that has failed makes no difference to the rest of the batch and to the disk. -/
theorem forEach_insertIdx
    (hfailed : d.hasFailed = true)
    {drafts : List Draft}
    {i : Nat}
    (hi : i ≤ drafts.length)
    (disk : Disk) :
    (forEach step (drafts.insertIdx i d)).run disk =
      withDraft i d ((forEach step drafts).run disk) := by
  induction drafts generalizing i disk with
  | nil =>
      cases Nat.le_zero.1 hi
      exact forEach_of_failed [] hfailed disk
  | cons e rest ih =>
      cases i with
      | zero => exact forEach_of_failed (e :: rest) hfailed disk
      | succ i =>
          have hi' : i ≤ rest.length := Nat.le_of_succ_le_succ hi
          rw [List.insertIdx_succ_cons]
          cases hfailed' : e.hasFailed with
          | true =>
              rw [forEach_of_failed _ hfailed', forEach_of_failed _ hfailed', ih hi']
              rfl
          | false =>
              rcases hstep : (step e).run disk with ⟨halt | result, disk'⟩
              · rw [forEach_of_error _ hfailed' hstep, forEach_of_error _ hfailed' hstep]
                rfl
              · rw [forEach_of_ok _ hfailed' hstep, forEach_of_ok _ hfailed' hstep, ih hi']
                rfl

end ForEach

/-- The stages of the library. -/
inductive Builtin where
  | parse
  | normalize
  | validate
  | emit
  | write
  deriving DecidableEq, Repr

namespace Builtin

def stage : Builtin → Stage DiskM
  | parse => Stage.parse
  | normalize => Stage.normalize
  | validate => Stage.validate
  | emit => Stage.emit
  | write => Stage.write

/-- Writes the files of a draft. -/
def writeDraft
    (target : Target)
    (d : Draft) : DiskM (Except Halt Draft) := do
  match d.bundle with
  | none =>
    return .error (.stage "write"
      ("document '" ++ d.name ++ "' has no output (was the emit stage run?)"))
  | some bundle =>
    match ← writeBundle target d.relative bundle with
    | .error e => return .error (.files e)
    | .ok () => return .ok d

/-- What a stage does with one draft. -/
def step
    (target : Target) :
    Builtin → Draft → DiskM (Except Halt Draft)
  | parse, d => return .ok d.parse
  | normalize, d => return onTree "normalize" d d.nest
  | validate, d => return onTree "validate" d (d.validate · target.options)
  | emit, d => return onTree "emit" d (d.emit · target.options)
  | write, d => writeDraft target d

theorem process_stage
    (stage : Builtin)
    (target : Target) :
    stage.stage.process target = forEach (stage.step target) := by
  cases stage <;> rfl

theorem follows_onTree
    {d result : Draft}
    {name : String}
    {act : Document → Draft}
    (hact : ∀ document, d.Follows (act document))
    (hresult : onTree name d act = .ok result) :
    d.Follows result := by
  rw [onTree] at hresult
  split at hresult
  · cases hresult
    exact hact _
  · cases hresult

theorem eq_of_writeDraft
    {target : Target}
    {d result : Draft}
    {disk disk' : Disk}
    (hresult : (writeDraft target d).run disk = (.ok result, disk')) :
    result = d := by
  rw [writeDraft] at hresult
  cases hbundle : d.bundle with
  | none =>
      simp only [hbundle] at hresult
      cases hresult
  | some bundle =>
      simp only [hbundle, StateT.run_bind] at hresult
      generalize hwritten : (writeBundle target d.relative bundle : DiskM _).run disk = written
        at hresult
      obtain ⟨written | written, disk''⟩ := written
      · cases hresult
      · cases hresult
        rfl

/-- A stage keeps what a draft is made from, and takes tree and bundle away from a draft that it
lets fail. -/
theorem follows_step
    {target : Target}
    {stage : Builtin}
    {d result : Draft}
    {disk disk' : Disk}
    (hd : d.failure = none)
    (hresult : (stage.step target d).run disk = (.ok result, disk')) :
    d.Follows result := by
  cases stage with
  | parse =>
      cases hresult
      exact Draft.follows_parse hd
  | normalize =>
      exact follows_onTree (Draft.follows_nest hd) (congrArg Prod.fst hresult)
  | validate =>
      exact follows_onTree (fun document => Draft.follows_validate hd document _)
        (congrArg Prod.fst hresult)
  | emit =>
      exact follows_onTree (fun document => Draft.follows_emit hd document _)
        (congrArg Prod.fst hresult)
  | write =>
      rw [eq_of_writeDraft hresult]
      exact ⟨rfl, Draft.isBare_of_ok hd⟩

end Builtin

end Stage

namespace Pipeline

/-- A moment of a run. The first of the stages is at work: it has dealt with the drafts that have
passed, and comes next to the first of those that wait. -/
structure Moment where
  disk : Disk
  passed : List Draft
  waiting : List Draft
  stages : List Stage.Builtin
  halt : Option Halt

namespace Moment

/-- The moment before a run. -/
def first
    (disk : Disk)
    (stages : List Stage.Builtin)
    (drafts : List Draft) : Moment :=
  ⟨disk, [], drafts, stages, none⟩

/-- The whole batch. -/
def drafts (moment : Moment) : List Draft := moment.passed ++ moment.waiting

/-- The number of the draft whose turn it is. -/
def turn (moment : Moment) : Nat := moment.passed.length

end Moment

/-- How one moment of a run comes from another. -/
inductive Next (target : Target) : Moment → Moment → Prop
  | skip
      {disk : Disk} {passed waiting : List Draft} {d : Draft}
      {stage : Stage.Builtin} {stages : List Stage.Builtin}
      (hfailed : d.hasFailed = true) :
      Next target ⟨disk, passed, d :: waiting, stage :: stages, none⟩
        ⟨disk, passed ++ [d], waiting, stage :: stages, none⟩
  | pass
      {disk disk' : Disk} {passed waiting : List Draft} {d result : Draft}
      {stage : Stage.Builtin} {stages : List Stage.Builtin}
      (hfailed : d.hasFailed = false)
      (hstep : (stage.step target d).run disk = (.ok result, disk')) :
      Next target ⟨disk, passed, d :: waiting, stage :: stages, none⟩
        ⟨disk', passed ++ [result], waiting, stage :: stages, none⟩
  | stop
      {disk disk' : Disk} {passed waiting : List Draft} {d : Draft}
      {stage : Stage.Builtin} {stages : List Stage.Builtin} {halt : Halt}
      (hfailed : d.hasFailed = false)
      (hstep : (stage.step target d).run disk = (.error halt, disk')) :
      Next target ⟨disk, passed, d :: waiting, stage :: stages, none⟩
        ⟨disk', passed, d :: waiting, stage :: stages, some halt⟩
  | change
      {disk : Disk} {passed : List Draft}
      {stage : Stage.Builtin} {stages : List Stage.Builtin} :
      Next target ⟨disk, passed, [], stage :: stages, none⟩ ⟨disk, [], passed, stages, none⟩

/-- Whether a run comes from one moment to another. -/
abbrev Leads (target : Target) : Moment → Moment → Prop := Relation.ReflTransGen (Next target)

variable {target : Target} {disk : Disk} {passed waiting drafts : List Draft}
  {stage : Stage.Builtin} {stages : List Stage.Builtin} {moment later : Moment}

/-- The moments in which a stage goes over the drafts that wait. -/
theorem leads_forEach
    {results : List Draft}
    {halt : Option Halt}
    {disk' : Disk}
    (hresults : (Stage.forEach (stage.step target) waiting).run disk = ((results, halt), disk')) :
    ∃ last, Leads target ⟨disk, passed, waiting, stage :: stages, none⟩ last ∧
      last.drafts = passed ++ results ∧ last.disk = disk' ∧ last.halt = halt ∧
      (halt = none → last = ⟨disk', passed ++ results, [], stage :: stages, none⟩) := by
  induction waiting generalizing disk passed results with
  | nil =>
      cases hresults
      exact ⟨_, .refl, rfl, rfl, rfl, fun _ => by simp⟩
  | cons d waiting ih =>
      cases hfailed : d.hasFailed with
      | true =>
          rw [Stage.forEach_of_failed waiting hfailed] at hresults
          cases hresults
          obtain ⟨last, hleads, hdrafts, hend⟩ := @ih disk (passed ++ [d]) _ rfl
          rw [List.append_assoc, List.singleton_append] at hdrafts hend
          exact ⟨last, hleads.head (.skip hfailed), hdrafts, hend⟩
      | false =>
          rcases hstep : (stage.step target d).run disk with ⟨halt' | result, disk''⟩
          · rw [Stage.forEach_of_error waiting hfailed hstep] at hresults
            cases hresults
            exact ⟨_, .single (.stop hfailed hstep), rfl, rfl, rfl, by simp⟩
          · rw [Stage.forEach_of_ok waiting hfailed hstep] at hresults
            cases hresults
            obtain ⟨last, hleads, hdrafts, hend⟩ := @ih disk'' (passed ++ [result]) _ rfl
            rw [List.append_assoc, List.singleton_append] at hdrafts hend
            exact ⟨last, hleads.head (.pass hfailed hstep), hdrafts, hend⟩

/-- A run of a pipeline goes through moments to one that has no next, and ends with what there is
at that moment. -/
theorem leads_run
    (target : Target)
    (disk : Disk)
    (stages : List Stage.Builtin)
    (drafts : List Draft) :
    ∃ last, Leads target (.first disk stages drafts) last ∧ (∀ moment, ¬ Next target last moment) ∧
      (run target (stages.map Stage.Builtin.stage) drafts).run disk =
        ((last.drafts, last.halt), last.disk) := by
  induction stages generalizing disk drafts with
  | nil =>
      exact ⟨_, .refl, fun moment hnext => (by cases hnext), rfl⟩
  | cons stage stages ih =>
      rw [List.map_cons, run, Stage.Builtin.process_stage, StateT.run_bind]
      rcases hresults : (Stage.forEach (stage.step target) drafts).run disk with
        ⟨⟨results, halt⟩, disk'⟩
      obtain ⟨last, hleads, hdrafts, hdisk, hhalt, hend⟩ :=
        @leads_forEach target disk [] drafts stage stages results halt disk' hresults
      cases halt with
      | some halt =>
          refine ⟨last, hleads, ?_, ?_⟩
          · intro moment hnext
            cases hnext <;> cases hhalt
          · rw [hdrafts, hdisk, hhalt]
            rfl
      | none =>
          obtain ⟨last', hleads', hend', hrun⟩ := ih disk' results
          rw [hend rfl] at hleads
          exact ⟨last', (hleads.tail .change).trans hleads', hend', hrun⟩

/-- From one moment to the next the batch stays the same, or one draft that has not failed is
replaced by what the stage makes of it. -/
theorem Next.drafts_cases
    (hnext : Next target moment later) :
    later.drafts = moment.drafts ∨
      ∃ passed d result waiting, d.hasFailed = false ∧ d.Follows result ∧
        moment.drafts = passed ++ d :: waiting ∧ later.drafts = passed ++ result :: waiting := by
  cases hnext with
  | skip _ => exact .inl (List.append_assoc ..)
  | @pass disk disk' passed waiting d result stage stages hfailed hstep =>
      have hok : d.failure = none := by simpa [Draft.hasFailed] using hfailed
      exact .inr ⟨passed, d, result, waiting, hfailed, Stage.Builtin.follows_step hok hstep, rfl,
        List.append_assoc ..⟩
  | stop _ _ => exact .inl rfl
  | change => exact .inl (List.append_nil _).symm

/-- What every moment of a run on the batch `drafts` satisfies. -/
structure Keeps (drafts : List Draft) (moment : Moment) : Prop where
  origin : moment.drafts.map Draft.origin = drafts.map Draft.origin
  isBare : ∀ d ∈ moment.drafts, d.IsBare

theorem keeps_first
    (hfresh : ∀ d ∈ drafts, d.IsFresh) :
    Keeps drafts (.first disk stages drafts) :=
  ⟨rfl, fun d hd => Draft.isBare_of_ok (hfresh d hd).failure⟩

/-- One step keeps the drafts in order. -/
theorem Keeps.next
    (hkeeps : Keeps drafts moment)
    (hnext : Next target moment later) :
    Keeps drafts later := by
  obtain ⟨horigin, hbare⟩ := hkeeps
  obtain hsame | ⟨passed, d, result, waiting, -, hfollows, hmoment, hlater⟩ := hnext.drafts_cases
  · exact ⟨hsame ▸ horigin, hsame ▸ hbare⟩
  · rw [hmoment, List.forall_mem_append, List.forall_mem_cons] at hbare
    refine ⟨?_, ?_⟩
    · simpa [hlater, hfollows.origin, hmoment] using horigin
    · rw [hlater, List.forall_mem_append, List.forall_mem_cons]
      exact ⟨hbare.1, hfollows.isBare, hbare.2.2⟩

/-- So does a whole run. -/
theorem Keeps.leads
    (hkeeps : Keeps drafts moment)
    (hleads : Leads target moment later) :
    Keeps drafts later := by
  induction hleads with
  | refl => exact hkeeps
  | tail _ hnext ih => exact ih.next hnext

/-- A draft that has failed stays as it is, whatever draft has its turn. -/
theorem Next.getElem?_of_failed
    {i : Nat}
    {d : Draft}
    (hnext : Next target moment later)
    (hd : moment.drafts[i]? = some d)
    (hfailed : d.hasFailed = true) :
    later.drafts[i]? = some d := by
  obtain hsame | ⟨passed, e, result, waiting, hok, -, hmoment, hlater⟩ := hnext.drafts_cases
  · rwa [hsame]
  · rw [hmoment] at hd
    rw [hlater]
    rcases lt_trichotomy i passed.length with hlt | rfl | hgt
    · rwa [List.getElem?_append_left hlt] at hd ⊢
    · rw [List.getElem?_append_right le_rfl, Nat.sub_self, List.getElem?_cons_zero,
        Option.some.injEq] at hd
      rw [hd, hfailed] at hok
      cases hok
    · obtain ⟨k, rfl⟩ := Nat.exists_eq_add_of_lt hgt
      rw [List.getElem?_append_right (by omega), Nat.add_assoc, Nat.add_sub_cancel_left] at hd ⊢
      exact hd

/-- A draft that has failed stays as it is until the end. -/
theorem getElem?_of_leads
    {i : Nat}
    {d : Draft}
    (hleads : Leads target moment later)
    (hd : moment.drafts[i]? = some d)
    (hfailed : d.hasFailed = true) :
    later.drafts[i]? = some d := by
  induction hleads with
  | refl => exact hd
  | tail _ hnext ih => exact hnext.getElem?_of_failed ih hfailed

theorem getElem?_turn
    (disk : Disk)
    (passed : List Draft)
    (d : Draft)
    (waiting : List Draft)
    (stages : List Stage.Builtin)
    (halt : Option Halt) :
    (Moment.mk disk passed (d :: waiting) stages halt).drafts[passed.length]? = some d := by
  rw [Moment.drafts, List.getElem?_append_right le_rfl, Nat.sub_self, List.getElem?_cons_zero]

/-- A stage that comes to a draft that has failed leaves the disk alone. -/
theorem Next.disk_of_failed
    {d : Draft}
    (hnext : Next target moment later)
    (hd : moment.drafts[moment.turn]? = some d)
    (hfailed : d.hasFailed = true) :
    later.disk = moment.disk := by
  cases hnext with
  | skip _ => rfl
  | pass hok _ =>
      cases (getElem?_turn ..).symm.trans hd
      rw [hfailed] at hok
      cases hok
  | stop hok _ =>
      cases (getElem?_turn ..).symm.trans hd
      rw [hfailed] at hok
      cases hok
  | change => rfl

/-- A run does with the other drafts and with the disk what it does without a draft that has
failed. -/
theorem run_insertIdx
    {i : Nat}
    {d : Draft}
    (hfailed : d.hasFailed = true)
    (hi : i ≤ drafts.length)
    (disk : Disk) :
    (run target (stages.map Stage.Builtin.stage) (drafts.insertIdx i d)).run disk =
      Stage.withDraft i d ((run target (stages.map Stage.Builtin.stage) drafts).run disk) := by
  induction stages generalizing drafts disk with
  | nil => rfl
  | cons stage stages ih =>
      rw [List.map_cons, run, run, Stage.Builtin.process_stage, StateT.run_bind, StateT.run_bind,
        Stage.forEach_insertIdx hfailed hi]
      have hlength := @Stage.length_forEach (stage.step target) drafts disk
      rcases hresults : (Stage.forEach (stage.step target) drafts).run disk with
        ⟨⟨results, halt⟩, disk'⟩
      rw [hresults] at hlength
      cases halt with
      | some halt => rfl
      | none => exact ih (hi.trans hlength.ge) disk'

/-- Take any pipeline of the stages of the library, a batch of fresh drafts and a disk. The run goes
through moments to where it ends, and at each moment, whether or not a stage has halted: a draft
that has failed has neither a tree nor a bundle, and the drafts are those of the batch in their
order, each with its path, its relative path and its source. A draft that has failed is the same in
every field at every later moment, a stage that comes to it leaves the disk as it is, and whatever
stages are still to come do with the disk and with the other drafts what they would do without
it. -/
theorem failure_is_final
    (target : Target)
    (disk : Disk)
    (stages : List Stage.Builtin)
    (hfresh : ∀ d ∈ drafts, d.IsFresh) :
    (∃ last, Leads target (.first disk stages drafts) last ∧
      (∀ moment, ¬ Next target last moment) ∧
      (run target (stages.map Stage.Builtin.stage) drafts).run disk =
        ((last.drafts, last.halt), last.disk)) ∧
    ∀ moment, Leads target (.first disk stages drafts) moment →
      (∀ d ∈ moment.drafts, d.failure ≠ none → d.document = none ∧ d.bundle = none) ∧
      moment.drafts.map (fun d => (d.path, d.relative, d.source)) =
        drafts.map (fun d => (d.path, d.relative, d.source)) ∧
      ∀ i d, moment.drafts[i]? = some d → d.failure ≠ none →
        (∀ later, Leads target moment later → later.drafts[i]? = some d ∧
          ∀ after, Next target later after → later.turn = i → after.disk = later.disk) ∧
        ∀ (rest : List Stage.Builtin) (disk' : Disk),
          (run target (rest.map Stage.Builtin.stage) moment.drafts).run disk' =
            Stage.withDraft i d
              ((run target (rest.map Stage.Builtin.stage) (moment.drafts.eraseIdx i)).run
                disk') := by
  refine ⟨leads_run target disk stages drafts, fun moment hleads => ?_⟩
  have hkeeps : Keeps drafts moment := (keeps_first hfresh).leads hleads
  have hiff (d : Draft) : d.failure ≠ none ↔ d.hasFailed = true := by
    rw [Draft.hasFailed, Option.isSome_iff_ne_none]
  refine ⟨fun d hd hfailed => hkeeps.isBare d hd ((hiff d).1 hfailed), hkeeps.origin,
    fun i d hd hfailed => ?_⟩
  rw [hiff] at hfailed
  refine ⟨fun later hlater => ?_, fun rest disk' => ?_⟩
  · have hstays := getElem?_of_leads hlater hd hfailed
    refine ⟨hstays, fun after hnext hturn => ?_⟩
    rw [← hturn] at hstays
    exact hnext.disk_of_failed hstays hfailed
  · obtain ⟨hi, rfl⟩ := List.getElem?_eq_some_iff.1 hd
    rw [← run_insertIdx hfailed (by rw [List.length_eraseIdx_of_lt hi]; omega),
      List.insertIdx_eraseIdx_getElem hi]

/-- A draft whose only block is not closed, and one that compiles. -/
def unclosedBatch : List Draft :=
  [.ofSource ⟨"a.htmlx"⟩ ⟨"a.htmlx"⟩ "div \x7b", .ofSource ⟨"b.htmlx"⟩ ⟨"b.htmlx"⟩ "div"]

/-- The first draft of the batch fails when it is read, and keeps its failure in a pipeline that
reads twice and emits before it nests. -/
theorem failure_is_final_unclosedBatch :
    ∃ moment d,
      Leads ⟨⟨"/out"⟩, CompileOptions.standard, false⟩
        (.first ⟨.empty, []⟩ [.parse, .emit, .parse, .normalize, .write] unclosedBatch) moment ∧
      moment.drafts[0]? = some d ∧ d.failure ≠ none ∧
      ∀ later, Leads ⟨⟨"/out"⟩, CompileOptions.standard, false⟩ moment later →
        later.drafts[0]? = some d := by
  have hfresh : ∀ d ∈ unclosedBatch, d.IsFresh := by
    simp only [unclosedBatch, List.forall_mem_cons, List.not_mem_nil, false_imp_iff, implies_true,
      and_true]
    exact ⟨⟨rfl, rfl, rfl, rfl⟩, ⟨rfl, rfl, rfl, rfl⟩⟩
  let d := (Draft.ofSource ⟨"a.htmlx"⟩ ⟨"a.htmlx"⟩ "div \x7b").parse
  have hfailed : d.hasFailed = true := by decide +kernel
  have hd : d.failure ≠ none := Option.isSome_iff_ne_none.1 hfailed
  have hleads : Leads ⟨⟨"/out"⟩, CompileOptions.standard, false⟩
      (.first ⟨.empty, []⟩ [.parse, .emit, .parse, .normalize, .write] unclosedBatch)
      ⟨⟨.empty, []⟩, [d], unclosedBatch.tail, [.parse, .emit, .parse, .normalize, .write], none⟩ :=
    .single (.pass rfl rfl)
  refine ⟨_, d, hleads, rfl, hd, fun later hlater => ?_⟩
  exact ((((failure_is_final ⟨⟨"/out"⟩, CompileOptions.standard, false⟩ ⟨.empty, []⟩ _ hfresh).2 _
    hleads).2.2 0 d rfl hd).1 later hlater).1

end Pipeline

end BlockMarkup
