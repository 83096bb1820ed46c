import BlockMarkup.Proofs.Files.Faulty
import BlockMarkup.Proofs.Site.Jobs

/-!
# All files or none

Files are written beside their places, one after another, and then moved there, one after another.
If something fails on the way, whatever a file was put at is emptied. So nothing is left of a failed
attempt. But a file that was there before is gone as well once another one has been moved to its
place.
-/

namespace BlockMarkup

/-- What stands behind the last separator can be made longer. -/
theorem Text.splitAt_append_of_not_mem_end
    {c : Char}
    {as : List Char}
    (has : c ∉ as)
    (cs : List Char) :
    ∃ front last, splitAt (· = c) cs = front ++ [last] ∧
      splitAt (· = c) (cs ++ as) = front ++ [last ++ as] := by
  induction cs with
  | nil => exact ⟨[], [], rfl, splitAt_eq_singleton has⟩
  | cons d cs ih =>
      obtain ⟨front, last, hcs, hmore⟩ := ih
      by_cases hd : d = c
      · exact ⟨[] :: front, last, by simp [splitAt, hd, hcs], by simp [splitAt, hd, hmore]⟩
      · have hneg : decide (d = c) = false := decide_eq_false hd
        cases front with
        | nil =>
            exact ⟨[], d :: last, splitAt_cons_of_neg hneg hcs, splitAt_cons_of_neg hneg hmore⟩
        | cons first front =>
            exact ⟨(d :: first) :: front, last, splitAt_cons_of_neg hneg hcs,
              splitAt_cons_of_neg hneg hmore⟩

namespace Outputs

open Disk (destination)
open FaultyDisk (FilledFrom)

variable {d : Disk} {s s' : FaultyDisk} {e : Fault} {p : Path} {text : String}
  {staged moved rest : List Path} {pending files : List (Path × String)}

section Running

/-- A fault while staging removes what was staged. -/
theorem run_stageAll_of_error
    (hwrite : (FileStore.writeText (temporary p) text : FaultyDiskM _).run s = (.error e, s')) :
    (stageAll staged ((p, text) :: pending) : FaultyDiskM _).run s =
      (.error e, ((removeAll staged : FaultyDiskM _).run s').2) := by
  rw [stageAll, StateT.run_bind, hwrite]
  rfl

theorem run_stageAll_of_ok
    (hwrite : (FileStore.writeText (temporary p) text : FaultyDiskM _).run s = (.ok (), s')) :
    (stageAll staged ((p, text) :: pending) : FaultyDiskM _).run s =
      (stageAll (staged ++ [temporary p]) pending : FaultyDiskM _).run s' := by
  rw [stageAll, StateT.run_bind, hwrite]
  rfl

/-- A fault while moving removes what was moved, and then the temporaries that are left. -/
theorem run_moveAll_of_error
    (hrename : (FileStore.rename (temporary p) p : FaultyDiskM _).run s = (.error e, s')) :
    (moveAll moved (p :: rest) : FaultyDiskM _).run s =
      (.error e, ((removeAll ((p :: rest).map temporary) : FaultyDiskM _).run
        ((removeAll moved : FaultyDiskM _).run s').2).2) := by
  rw [moveAll, StateT.run_bind, hrename]
  rfl

theorem run_moveAll_of_ok
    (hrename : (FileStore.rename (temporary p) p : FaultyDiskM _).run s = (.ok (), s')) :
    (moveAll moved (p :: rest) : FaultyDiskM _).run s =
      (moveAll (moved ++ [p]) rest : FaultyDiskM _).run s' := by
  rw [moveAll, StateT.run_bind, hrename]
  rfl

theorem run_writeAll_of_error
    (hstage : (stageAll [] files : FaultyDiskM _).run s = (.error e, s')) :
    (writeAll files : FaultyDiskM _).run s = (.error e, s') := by
  rw [writeAll, StateT.run_bind, hstage]
  rfl

theorem run_writeAll_of_ok
    (hstage : (stageAll [] files : FaultyDiskM _).run s = (.ok (), s')) :
    (writeAll files : FaultyDiskM _).run s =
      (moveAll [] (files.map (·.1)) : FaultyDiskM _).run s' := by
  rw [writeAll, StateT.run_bind, hstage]
  rfl

end Running

/-- Removing files leaves nothing at their places. -/
theorem run_removeAll
    (ps : List Path)
    (hps : ∀ p ∈ ps, s.disk.Leads p ∧
      s.disk.entryAt? (destination s.disk.workingPlace p) ≠ some .directory) :
    ∃ disk, (removeAll ps : FaultyDiskM _).run s = ((), { s with disk }) ∧
      disk.workingPlace = s.disk.workingPlace ∧
      ∀ place, disk.entryAt? place =
        if place ∈ ps.map (destination s.disk.workingPlace) then none
        else s.disk.entryAt? place := by
  induction ps generalizing s with
  | nil => exact ⟨s.disk, rfl, rfl, fun place => by simp⟩
  | cons p ps ih =>
      rw [List.forall_mem_cons] at hps
      obtain ⟨⟨hp, hfree⟩, hps⟩ := hps
      have hentries := hp.entryAt?_withoutFile hfree
      have hworking : (s.disk.change (s.disk.withoutFile p)).2.workingPlace =
          s.disk.workingPlace := by
        cases s.disk.withoutFile p <;> rfl
      -- What is removed is no directory, so the other paths lead where they did.
      have hdirectories : ∀ place,
          (s.disk.change (s.disk.withoutFile p)).2.entryAt? place = some .directory ↔
            s.disk.entryAt? place = some .directory := by
        intro place
        rw [hentries]
        split_ifs with hplace
        · exact iff_of_false (by simp) (hplace ▸ hfree)
        · rfl
      obtain ⟨disk, hrun, hkept, hdisk⟩ :=
        @ih { s with disk := (s.disk.change (s.disk.withoutFile p)).2 } fun q hq =>
          ⟨(hps q hq).1.of_directories hworking fun place => (hdirectories place).2, by
            simp only [hworking]
            exact fun hplace => (hps q hq).2 ((hdirectories _).1 hplace)⟩
      refine ⟨disk, hrun, hkept.trans hworking, fun place => ?_⟩
      rw [hdisk]
      simp only [hworking, hentries, List.map_cons, List.mem_cons]
      by_cases hplace : place = destination s.disk.workingPlace p <;> simp [hplace]

/-- Whether nothing is left of the files that were put on a disk since `d`: their places are empty,
and all others are as they were. -/
def RolledBack (d : Disk) (s : FaultyDisk) : Prop :=
  s.disk.workingPlace = d.workingPlace ∧
    ∀ place, s.disk.entryAt? place =
      if place ∈ s.filled.map (destination d.workingPlace) then none else d.entryAt? place

/-- Whether nothing is left of the files that were put on a disk but at the places of some paths. -/
def LeftAt (d : Disk) (s : FaultyDisk) (ps : List Path) : Prop :=
  ∀ p ∈ s.filled, destination d.workingPlace p ∈ ps.map (destination d.workingPlace) ∨
    s.disk.entryAt? (destination d.workingPlace p) = none

/-- It is enough to remove what is left. -/
theorem rolledBack_of_removeAll
    {ps : List Path}
    (h : FilledFrom d s)
    (hps : ∀ p ∈ ps, p ∈ s.filled)
    (hleft : LeftAt d s ps) :
    ∃ disk, (removeAll ps : FaultyDiskM _).run s = ((), { s with disk }) ∧
      RolledBack d { s with disk } := by
  obtain ⟨disk, hrun, hworking, hdisk⟩ := run_removeAll ps fun p hp =>
    ⟨h.leads p (hps p hp), by
      rw [h.working]
      exact fun hdirectory => h.free p (hps p hp) ((h.directories _).1 hdirectory)⟩
  rw [h.working] at hworking hdisk
  refine ⟨disk, hrun, hworking, fun place => ?_⟩
  rw [hdisk]
  by_cases hfilled : place ∈ s.filled.map (destination d.workingPlace)
  · rw [if_pos hfilled]
    obtain ⟨p, hp, rfl⟩ := List.mem_map.1 hfilled
    split_ifs with hremoved
    · rfl
    · exact (hleft p hp).resolve_left hremoved
  · have hremoved : place ∉ ps.map (destination d.workingPlace) := fun hplace => by
      obtain ⟨p, hp, rfl⟩ := List.mem_map.1 hplace
      exact hfilled (List.mem_map_of_mem (hps p hp))
    rw [if_neg hfilled, if_neg hremoved, h.outside place hfilled]

/-- What comes of an attempt to put files at paths: all of it is taken back, or all files are
put. -/
def Settles
    (d : Disk)
    (filled paths : List Path)
    (outcome : Except Fault Unit × FaultyDisk) : Prop :=
  (∃ e s', outcome = (.error e, s') ∧ RolledBack d s' ∧
    ∃ done left, s'.filled = filled ++ done ∧ paths = done ++ left ∧ left ≠ []) ∨
  ∃ s', outcome = (.ok (), s') ∧ FilledFrom d s' ∧ s'.filled = filled ++ paths

theorem Settles.cons
    {filled paths : List Path}
    {outcome : Except Fault Unit × FaultyDisk}
    (h : Settles d (filled ++ [p]) paths outcome) :
    Settles d filled (p :: paths) outcome := by
  rcases h with ⟨e, s', hrun, hback, done, left, hfilled, hpaths, hleft⟩ | ⟨s', hrun, hs', hfilled⟩
  · exact .inl ⟨e, s', hrun, hback, p :: done, left, by simp [hfilled], by simp [hpaths], hleft⟩
  · exact .inr ⟨s', hrun, hs', by simp [hfilled]⟩

/-- A whole run of staging: it succeeds, or nothing is left at the places it filled. -/
theorem settles_stageAll
    (h : FilledFrom d s)
    (files : List (Path × String)) :
    Settles d s.filled (files.map fun f => temporary f.1)
      ((stageAll s.filled files : FaultyDiskM _).run s) := by
  induction files generalizing s with
  | nil => exact .inr ⟨s, rfl, h, by simp⟩
  | cons f files ih =>
      obtain ⟨p, text⟩ := f
      obtain ⟨strikes, ⟨e, hwrite⟩ | ⟨root, hwritten, hwrite⟩⟩ :=
        FaultyDisk.write_cases s (temporary p) text
      · obtain ⟨disk, hrun, hback⟩ := rolledBack_of_removeAll (h.struck strikes)
          (fun _ hp => hp) fun p hp => .inl (List.mem_map_of_mem hp)
        rw [run_stageAll_of_error hwrite, hrun]
        exact .inl ⟨e, _, rfl, hback, [], _, by simp, rfl, List.cons_ne_nil _ _⟩
      · rw [run_stageAll_of_ok hwrite]
        exact (ih (h.write hwritten)).cons

theorem run_removeAll_append
    (ps qs : List Path)
    (s : FaultyDisk) :
    (removeAll qs : FaultyDiskM _).run ((removeAll ps : FaultyDiskM _).run s).2 =
      (removeAll (ps ++ qs) : FaultyDiskM _).run s := by
  induction ps generalizing s with
  | nil => rfl
  | cons p ps ih => exact ih _

/-- The names of a temporary are those of its path, with another one at the end. -/
theorem names_temporary
    (p : Path) :
    ∃ (front : List String) (last : List Char),
      Disk.names p = front ++ (if last = [] then [] else [String.ofList last]) ∧
        Disk.names (temporary p) = front ++ [String.ofList (last ++ ".tmp".toList)] := by
  have hsuffix : '/' ∉ ".tmp".toList := by decide
  obtain ⟨front, last, hpieces, hmore⟩ := Text.splitAt_append_of_not_mem_end hsuffix p.text.toList
  have htemporary : (temporary p).pieces = front ++ [last ++ ".tmp".toList] := by
    rw [Path.pieces, temporary, Path.append, String.toList_append, hmore]
  refine ⟨(front.filter (!·.isEmpty)).map String.ofList, last, ?_, ?_⟩
  · rw [Disk.names, Path.pieces, hpieces]
    cases last <;> simp
  · rw [Disk.names, htemporary]
    simp

theorem isAbsolute_temporary
    (p : Path) :
    (temporary p).isAbsolute = p.isAbsolute := by
  obtain ⟨text⟩ := p
  by_cases htext : text = ""
  · subst htext
    rfl
  · exact Path.isAbsolute_append htext ".tmp"

/-- A file is not written where it belongs at first. -/
theorem destination_temporary_ne
    (working : List String)
    (p : Path) :
    destination working (temporary p) ≠ destination working p := by
  obtain ⟨front, last, hnames, htemporary⟩ := names_temporary p
  have hlength : 4 ≤ (String.ofList (last ++ ".tmp".toList)).toList.length := by simp
  have hcurrent : String.ofList (last ++ ".tmp".toList) ≠ "." := by
    intro heq
    rw [heq] at hlength
    exact absurd hlength (by decide)
  have hparent : String.ofList (last ++ ".tmp".toList) ≠ ".." := by
    intro heq
    rw [heq] at hlength
    exact absurd hlength (by decide)
  rw [destination, destination, isAbsolute_temporary, hnames, htemporary, Disk.spelled_append,
    Disk.spelled_append]
  generalize Disk.spelled (if p.isAbsolute then [] else working) front = place
  intro heq
  rw [Disk.spelled, if_neg hcurrent, if_neg hparent, Disk.spelled] at heq
  have hplaces := congrArg List.length heq
  split_ifs at heq hplaces with hlast
  · simp [Disk.spelled] at hplaces
  · simp only [Disk.spelled] at heq hplaces
    split_ifs at heq hplaces with hdot hdots
    · simp at hplaces
    · simp at hplaces
      omega
    · have hname := List.append_cancel_left heq
      simp at hname

/-- One move keeps account of where files are left. -/
theorem LeftAt.rename
    {root : FileTree}
    {strikes : Nat → Option Fault}
    {file : File}
    (h : LeftAt d s (moved ++ temporary p :: rest))
    (hentries : ∀ place, root.entryAt? place =
      if place = destination d.workingPlace p then some (.file file)
      else if place = destination d.workingPlace (temporary p) then none
      else s.disk.entryAt? place) :
    LeftAt d ⟨{ s.disk with root }, strikes, s.filled ++ [p]⟩ (moved ++ [p] ++ rest) := by
  intro q hq
  by_cases hgoal : destination d.workingPlace q = destination d.workingPlace p
  · exact .inl (by simp [hgoal])
  · have hold : q ∈ s.filled := by
      refine (List.mem_append.1 hq).resolve_right fun hp => ?_
      rw [List.mem_singleton.1 hp] at hgoal
      exact hgoal rfl
    have hnew := hentries (destination d.workingPlace q)
    rw [if_neg hgoal] at hnew
    by_cases horigin : destination d.workingPlace q = destination d.workingPlace (temporary p)
    · exact .inr (hnew.trans (if_pos horigin))
    · rw [if_neg horigin] at hnew
      refine (h q hold).imp (fun hplace => ?_) hnew.trans
      simpa [hgoal, horigin] using hplace

/-- A whole run of moving: it succeeds, or nothing is left at the places it filled. -/
theorem settles_moveAll
    (h : FilledFrom d s)
    (hmoved : ∀ p ∈ moved, p ∈ s.filled)
    (hrest : ∀ p ∈ rest, temporary p ∈ s.filled)
    (hleft : LeftAt d s (moved ++ rest.map temporary)) :
    Settles d s.filled rest ((moveAll moved rest : FaultyDiskM _).run s) := by
  induction rest generalizing s moved with
  | nil => exact .inr ⟨s, rfl, h, by simp⟩
  | cons p rest ih =>
      obtain ⟨strikes, ⟨e, hrename⟩ | ⟨root, hrenamed, hrename⟩⟩ :=
        FaultyDisk.rename_cases s (temporary p) p
      · obtain ⟨disk, hrun, hback⟩ := rolledBack_of_removeAll (h.struck strikes)
          (List.forall_mem_append.2 ⟨hmoved, List.forall_mem_map.2 hrest⟩) hleft
        rw [run_moveAll_of_error hrename, run_removeAll_append, hrun]
        exact .inl ⟨e, _, rfl, hback, [], _, by simp, rfl, List.cons_ne_nil _ _⟩
      · rw [List.forall_mem_cons] at hrest
        have hne := destination_temporary_ne d.workingPlace p
        obtain ⟨file, -, -, hentries⟩ := h.entryAt?_renamed hrest.1 hrenamed
        rw [run_moveAll_of_ok hrename]
        refine (ih (h.rename hrest.1 hne hrenamed) ?_ ?_ (hleft.rename hentries)).cons
        · rw [List.forall_mem_append, List.forall_mem_singleton]
          exact ⟨fun q hq => List.mem_append_left _ (hmoved q hq),
            List.mem_append_right _ List.mem_cons_self⟩
        · exact fun q hq => List.mem_append_left _ (hrest.2 q hq)

/-- A failed attempt leaves nothing behind: whatever files were put at is empty, and everything else
is as it was. -/
theorem rolledBack_of_writeAll
    {strikes : Nat → Option Fault}
    (herror : (writeAll files : FaultyDiskM _).run ⟨d, strikes, []⟩ = (.error e, s')) :
    RolledBack d s' ∧ ∃ left, left ≠ [] ∧
      files.map (fun f => temporary f.1) ++ files.map (·.1) = s'.filled ++ left := by
  have hstart : FilledFrom d ⟨d, strikes, []⟩ := .start d strikes
  rcases settles_stageAll hstart files with
    ⟨e', s₁, hstage, hback, done, left, hfilled, htemporaries, hleft⟩ | ⟨s₁, hstage, h₁, hfilled⟩
  · cases (run_writeAll_of_error hstage).symm.trans herror
    refine ⟨hback, left ++ files.map (·.1), by simp [hleft], ?_⟩
    rw [htemporaries, hfilled]
    simp
  · rw [run_writeAll_of_ok hstage] at herror
    have hrest : ∀ p ∈ files.map (·.1), temporary p ∈ s₁.filled := by
      rw [hfilled]
      exact List.forall_mem_map.2 fun f hf => List.mem_map_of_mem hf
    have hleftAt : LeftAt d s₁ ([] ++ (files.map (·.1)).map temporary) := by
      intro p hp
      rw [hfilled] at hp
      refine .inl (List.mem_map_of_mem ?_)
      simpa using hp
    rcases settles_moveAll h₁ (List.forall_mem_nil _) hrest hleftAt with
      ⟨e', s₂, hmove, hback, done, left, hdone, hpaths, hleft⟩ | ⟨s₂, hmove, -, -⟩
    · cases hmove.symm.trans herror
      refine ⟨hback, left, hleft, ?_⟩
      rw [hpaths, hdone, hfilled]
      simp
    · cases hmove.symm.trans herror

section Success

variable {working : List String}

/-- What lies at each place after files have been written beside theirs. -/
theorem entryAt?_stageAll
    (hworking : s.disk.workingPlace = working)
    (hfiles : (files.map fun f => destination working (temporary f.1)).Nodup)
    (hok : (stageAll staged files : FaultyDiskM _).run s = (.ok (), s')) :
    s'.disk.workingPlace = working ∧
      (∀ f ∈ files, s'.disk.entryAt? (destination working (temporary f.1)) =
        some (.file (.regular f.2.toUTF8))) ∧
      ∀ place, place ∉ files.map (fun f => destination working (temporary f.1)) →
        s'.disk.entryAt? place = s.disk.entryAt? place := by
  induction files generalizing s staged with
  | nil =>
      cases hok
      exact ⟨hworking, List.forall_mem_nil _, fun _ _ => rfl⟩
  | cons f files ih =>
      obtain ⟨p, text⟩ := f
      rw [List.map_cons, List.nodup_cons] at hfiles
      obtain ⟨strikes, ⟨e, hwrite⟩ | ⟨root, hwritten, hwrite⟩⟩ :=
        FaultyDisk.write_cases s (temporary p) text
      · rw [run_stageAll_of_error hwrite] at hok
        cases hok
      · rw [run_stageAll_of_ok hwrite] at hok
        obtain ⟨hkept, hothers, houtside⟩ :=
          @ih ⟨{ s.disk with root }, strikes, s.filled ++ [temporary p]⟩ (staged ++ [temporary p])
            hworking hfiles.2 hok
        obtain ⟨-, hentries⟩ := Disk.entryAt?_written hwritten
        rw [hworking] at hentries
        refine ⟨hkept, List.forall_mem_cons.2 ⟨?_, hothers⟩, fun place hplace => ?_⟩
        · exact (houtside _ hfiles.1).trans ((hentries _).trans (if_pos rfl))
        · rw [List.map_cons, List.mem_cons, not_or] at hplace
          exact (houtside place hplace.2).trans ((hentries place).trans (if_neg hplace.1))

/-- What lies at each place after files have been moved to theirs. -/
theorem entryAt?_moveAll
    (hworking : s.disk.workingPlace = working)
    (hfiles : (files.flatMap (Job.places working)).Nodup)
    (hstaged : ∀ f ∈ files, s.disk.entryAt? (destination working (temporary f.1)) =
      some (.file (.regular f.2.toUTF8)))
    (hok : (moveAll moved (files.map (·.1)) : FaultyDiskM _).run s = (.ok (), s')) :
    s'.disk.workingPlace = working ∧
      (∀ f ∈ files,
        s'.disk.entryAt? (destination working f.1) = some (.file (.regular f.2.toUTF8)) ∧
          s'.disk.entryAt? (destination working (temporary f.1)) = none) ∧
      ∀ place, place ∉ files.flatMap (Job.places working) →
        s'.disk.entryAt? place = s.disk.entryAt? place := by
  induction files generalizing s moved with
  | nil =>
      cases hok
      exact ⟨hworking, List.forall_mem_nil _, fun _ _ => rfl⟩
  | cons f files ih =>
      rw [List.flatMap_cons, List.nodup_append] at hfiles
      obtain ⟨hown, hfiles, hapart⟩ := hfiles
      rw [List.forall_mem_cons] at hstaged
      rw [List.map_cons] at hok
      obtain ⟨strikes, ⟨e, hrename⟩ | ⟨root, hrenamed, hrename⟩⟩ :=
        FaultyDisk.rename_cases s (temporary f.1) f.1
      · rw [run_moveAll_of_error hrename] at hok
        cases hok
      · rw [run_moveAll_of_ok hrename] at hok
        have hne : destination working (temporary f.1) ≠ destination working f.1 :=
          destination_temporary_ne working f.1
        obtain ⟨-, hentries⟩ := Disk.entryAt?_renamed hrenamed (hworking ▸ hstaged.1)
        rw [hworking] at hentries
        have hsame : ∀ place, place ∉ Job.places working f →
            root.entryAt? place = s.disk.entryAt? place := by
          intro place hplace
          rw [Job.places, List.mem_pair, not_or] at hplace
          rw [hentries, if_neg hplace.1, if_neg hplace.2]
        have hlater : ∀ place ∈ Job.places working f, place ∉ files.flatMap (Job.places working) :=
          fun place hplace hother => hapart place hplace place hother rfl
        have hnext : ∀ g ∈ files, root.entryAt? (destination working (temporary g.1)) =
            some (.file (.regular g.2.toUTF8)) := by
          intro g hg
          have hplace : destination working (temporary g.1) ∈ files.flatMap (Job.places working) :=
            List.mem_flatMap.2 ⟨g, hg, by simp [Job.places]⟩
          rw [hsame _ fun hmem => hlater _ hmem hplace, hstaged.2 g hg]
        obtain ⟨hkept, hothers, houtside⟩ :=
          @ih ⟨{ s.disk with root }, strikes, s.filled ++ [f.1]⟩ (moved ++ [f.1]) hworking hfiles
            hnext hok
        refine ⟨hkept, List.forall_mem_cons.2 ⟨⟨?_, ?_⟩, hothers⟩, fun place hplace => ?_⟩
        · exact (houtside _ (hlater _ (by simp [Job.places]))).trans
            ((hentries _).trans (if_pos rfl))
        · exact (houtside _ (hlater _ (by simp [Job.places]))).trans
            ((hentries _).trans ((if_neg hne).trans (if_pos rfl)))
        · rw [List.flatMap_cons, List.mem_append, not_or] at hplace
          exact (houtside place hplace.2).trans (hsame place hplace.1)

theorem map_temporary_sublist
    (working : List String)
    (files : List (Path × String)) :
    (files.map fun f => destination working (temporary f.1)).Sublist
      (files.flatMap (Job.places working)) := by
  induction files with
  | nil => exact .slnil
  | cons f files ih => exact (ih.cons_cons _).cons _

/-- What lies at each place after files have been written. -/
theorem entryAt?_writeAll
    (hworking : s.disk.workingPlace = working)
    (hfiles : (files.flatMap (Job.places working)).Nodup)
    (hok : (writeAll files : FaultyDiskM _).run s = (.ok (), s')) :
    s'.disk.workingPlace = working ∧
      (∀ f ∈ files,
        s'.disk.entryAt? (destination working f.1) = some (.file (.regular f.2.toUTF8)) ∧
          s'.disk.entryAt? (destination working (temporary f.1)) = none) ∧
      ∀ place, place ∉ files.flatMap (Job.places working) →
        s'.disk.entryAt? place = s.disk.entryAt? place := by
  have htemporaries := map_temporary_sublist working files
  cases hstage : (stageAll [] files : FaultyDiskM _).run s with
  | mk result s₁ =>
      cases result with
      | error e =>
          rw [run_writeAll_of_error hstage] at hok
          cases hok
      | ok _ =>
          rw [run_writeAll_of_ok hstage] at hok
          obtain ⟨hkept, hstaged, hbefore⟩ :=
            entryAt?_stageAll hworking (hfiles.sublist htemporaries) hstage
          obtain ⟨hkept', hmoved, hbehind⟩ := entryAt?_moveAll hkept hfiles hstaged hok
          refine ⟨hkept', hmoved, fun place hplace => ?_⟩
          refine (hbehind place hplace).trans (hbefore place fun hmem => ?_)
          exact hplace (htemporaries.subset hmem)

end Success

/-- Files that have places of their own are all written, or nothing is left of them, whatever
strikes on the way. If they are written, each is in its place and no temporary is left. If not, each
place that a file or a temporary has is empty or as it was. All other places are as they were. -/
theorem writeAll_all_or_nothing
    (hfiles : (files.flatMap (Job.places d.workingPlace)).Nodup)
    (strikes : Nat → Option Fault) :
    (∀ s', (writeAll files : FaultyDiskM _).run ⟨d, strikes, []⟩ = (.ok (), s') →
      ∀ f ∈ files,
        s'.disk.entryAt? (destination d.workingPlace f.1) = some (.file (.regular f.2.toUTF8)) ∧
          s'.disk.entryAt? (destination d.workingPlace (temporary f.1)) = none) ∧
      (∀ e s', (writeAll files : FaultyDiskM _).run ⟨d, strikes, []⟩ = (.error e, s') →
        ∀ f ∈ files, ∀ place ∈ Job.places d.workingPlace f,
          s'.disk.entryAt? place = none ∨ s'.disk.entryAt? place = d.entryAt? place) ∧
      ∀ result s', (writeAll files : FaultyDiskM _).run ⟨d, strikes, []⟩ = (result, s') →
        s'.disk.workingPlace = d.workingPlace ∧
          ∀ place, (∀ f ∈ files, place ∉ Job.places d.workingPlace f) →
            s'.disk.entryAt? place = d.entryAt? place := by
  refine ⟨fun s' hok => ?_, fun e s' herror f hf place hplace => ?_, fun result s' hrun => ?_⟩
  · exact (entryAt?_writeAll rfl hfiles hok).2.1
  · obtain ⟨⟨-, hentries⟩, -⟩ := rolledBack_of_writeAll herror
    rw [hentries]
    split_ifs
    · exact .inl rfl
    · exact .inr rfl
  · cases result with
    | ok _ =>
        obtain ⟨hworking, -, houtside⟩ := entryAt?_writeAll rfl hfiles hrun
        refine ⟨hworking, fun place hplace => houtside place fun hmem => ?_⟩
        obtain ⟨f, hf, hmem⟩ := List.mem_flatMap.1 hmem
        exact hplace f hf hmem
    | error e =>
        obtain ⟨⟨hworking, hentries⟩, left, -, hpaths⟩ := rolledBack_of_writeAll hrun
        refine ⟨hworking, fun place hplace => ?_⟩
        rw [hentries, if_neg fun hmem => ?_]
        obtain ⟨p, hp, rfl⟩ := List.mem_map.1 hmem
        have hpath : p ∈ files.map (fun f => temporary f.1) ++ files.map (·.1) := by
          rw [hpaths]
          exact List.mem_append_left _ hp
        rcases List.mem_append.1 hpath with hp | hp
        · obtain ⟨f, hf, rfl⟩ := List.mem_map.1 hp
          exact hplace f hf (by simp [Job.places])
        · obtain ⟨f, hf, rfl⟩ := List.mem_map.1 hp
          exact hplace f hf (by simp [Job.places])

theorem exists_of_fst_eq
    {outcome : Except Fault Unit × FaultyDisk}
    {result : Except Fault Unit}
    (hresult : outcome.1 = result) :
    ∃ s', outcome = (result, s') :=
  ⟨outcome.2, by rw [← hresult]⟩

/-- A page with its companions. -/
def newPage : List (Path × String) :=
  [(⟨"out/index.html"⟩, "new"), (⟨"out/index.css"⟩, "p"), (⟨"out/index.js"⟩, "init")]

/-- A disk with an older page and its script. -/
def oldPageDisk : Disk :=
  ⟨.directory [("out", .directory
    [("index.html", .file (.regular "old".toUTF8)),
      ("index.js", .file (.regular "exit".toUTF8))])], []⟩

/-- The second rename is struck. -/
def lateStrike (k : Nat) : Option Fault := if k = 4 then some (.other "no space") else none

/-- All temporaries are written and the page is moved to its place before the strike. -/
theorem writeAll_newPage_lateStrike :
    ∃ s', (writeAll newPage : FaultyDiskM _).run ⟨oldPageDisk, lateStrike, []⟩ =
        (.error (.other "no space"), s') ∧
      s'.filled = [⟨"out/index.html.tmp"⟩, ⟨"out/index.css.tmp"⟩, ⟨"out/index.js.tmp"⟩,
        ⟨"out/index.html"⟩] := by
  have hrun : ((writeAll newPage : FaultyDiskM _).run ⟨oldPageDisk, lateStrike, []⟩).1 =
        .error (.other "no space") ∧
      ((writeAll newPage : FaultyDiskM _).run ⟨oldPageDisk, lateStrike, []⟩).2.filled =
        [⟨"out/index.html.tmp"⟩, ⟨"out/index.css.tmp"⟩, ⟨"out/index.js.tmp"⟩,
          ⟨"out/index.html"⟩] := by
    decide +kernel
  obtain ⟨s', hs'⟩ := exists_of_fst_eq hrun.1
  have hfilled := hrun.2
  rw [hs'] at hfilled
  exact ⟨s', hs', hfilled⟩

theorem writeAll_all_or_nothing_newPage :
    (newPage.flatMap (Job.places oldPageDisk.workingPlace)).Nodup ∧
      (∃ s', (writeAll newPage : FaultyDiskM _).run ⟨oldPageDisk, fun _ => none, []⟩ =
          (.ok (), s') ∧
        s'.disk.entryAt? (destination [] ⟨"out/index.html"⟩) =
          some (.file (.regular "new".toUTF8))) ∧
      ∃ e s', (writeAll newPage : FaultyDiskM _).run ⟨oldPageDisk, lateStrike, []⟩ =
          (.error e, s') ∧
        ∀ f ∈ newPage, ∀ place ∈ Job.places [] f,
          s'.disk.entryAt? place = none ∨ s'.disk.entryAt? place = oldPageDisk.entryAt? place := by
  have hfiles : (newPage.flatMap (Job.places oldPageDisk.workingPlace)).Nodup := by decide +kernel
  have hok : ((writeAll newPage : FaultyDiskM _).run ⟨oldPageDisk, fun _ => none, []⟩).1 =
      .ok () := by
    decide +kernel
  obtain ⟨s₁, hrun₁⟩ := exists_of_fst_eq hok
  obtain ⟨s₂, hrun₂, -⟩ := writeAll_newPage_lateStrike
  have hwritten := (writeAll_all_or_nothing hfiles fun _ => none).1 s₁ hrun₁
  have hback := (writeAll_all_or_nothing hfiles lateStrike).2.1 _ s₂ hrun₂
  exact ⟨hfiles, ⟨s₁, hrun₁, (hwritten _ List.mem_cons_self).1⟩, _, s₂, hrun₂, hback⟩

/-- A failed attempt to write files takes away what it has put somewhere and nothing else. It puts
temporaries first, and then files in their places, so a file that was in its place before is still
there exactly if none has been moved there yet. -/
theorem failed_writeAll_keeps_unfilled
    {strikes : Nat → Option Fault}
    (herror : (writeAll files : FaultyDiskM _).run ⟨d, strikes, []⟩ = (.error e, s')) :
    (∃ left, left ≠ [] ∧
        files.map (fun f => temporary f.1) ++ files.map (·.1) = s'.filled ++ left) ∧
      ∀ f ∈ files, ∀ file,
        d.entryAt? (destination d.workingPlace f.1) = some (.file file) →
          s'.disk.entryAt? (destination d.workingPlace f.1) =
            if destination d.workingPlace f.1 ∈ s'.filled.map (destination d.workingPlace) then none
            else some (.file file) := by
  obtain ⟨⟨-, hentries⟩, hleft⟩ := rolledBack_of_writeAll herror
  refine ⟨hleft, fun f hf file hold => ?_⟩
  rw [hentries, hold]

theorem failed_writeAll_keeps_unfilled_newPage :
    ∃ e s', (writeAll newPage : FaultyDiskM _).run ⟨oldPageDisk, lateStrike, []⟩ =
        (.error e, s') ∧
      s'.disk.entryAt? (destination [] ⟨"out/index.html"⟩) = none ∧
      s'.disk.entryAt? (destination [] ⟨"out/index.js"⟩) =
        some (.file (.regular "exit".toUTF8)) := by
  obtain ⟨s', hrun, hfilled⟩ := writeAll_newPage_lateStrike
  obtain ⟨-, hkept⟩ := failed_writeAll_keeps_unfilled hrun
  rw [hfilled] at hkept
  refine ⟨_, s', hrun, ?_, ?_⟩
  · exact (hkept _ (.head _) (.regular "old".toUTF8) rfl).trans (if_pos (by decide +kernel))
  · exact (hkept _ (.tail _ (.tail _ (.head _))) (.regular "exit".toUTF8) rfl).trans
      (if_neg (by decide +kernel))

/-- A disk with an older page, and a directory where its style sheet belongs. -/
def blockedDisk : Disk :=
  ⟨.directory [("out", .directory
    [("index.html", .file (.regular "old".toUTF8)), ("index.css", .directory [])])], []⟩

/-- A page that was there before is lost if its new companions cannot be moved to their places. -/
theorem failed_writeAll_loses_old_page :
    blockedDisk.entryAt? (destination [] ⟨"out/index.html"⟩) =
        some (.file (.regular "old".toUTF8)) ∧
      ((writeAll newPage : DiskM _).run blockedDisk).1 = .error .isADirectory ∧
      ((writeAll newPage : DiskM _).run blockedDisk).2.entryAt?
        (destination [] ⟨"out/index.html"⟩) = none := by
  refine ⟨rfl, ?_, ?_⟩
  · decide +kernel
  · decide +kernel

end Outputs

end BlockMarkup
