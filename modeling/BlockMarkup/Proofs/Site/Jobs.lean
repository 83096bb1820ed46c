import BlockMarkup.Proofs.Files.Disk
import BlockMarkup.Proofs.Files.Program
import BlockMarkup.Site.Pipeline
import Mathlib.Tactic

/-!
# Writing files side by side

Files are written by programs that take turns on one disk. Each of them changes only places of its
own, and makes directories that have to be there in the end anyway. So what one of them has reached
stays as it is while the others go on, and when all have succeeded nothing is left to tell in which
order they went.
-/

namespace BlockMarkup

namespace Outputs

open Program

theorem stageAll_cons
    (staged : List Path)
    (p : Path)
    (text : String)
    (rest : List (Path × String)) :
    ∃ next : Except Fault Unit → Program (Except Fault Unit),
      (stageAll staged ((p, text) :: rest) : Program _) =
          Program.call (.write (temporary p) text.toUTF8) next ∧
        (∀ e, Fails (next (.error e))) ∧
        next (.ok ()) = stageAll (staged ++ [temporary p]) rest := by
  refine ⟨_, rfl, fun e => ?_, rfl⟩
  exact (returns_any (removeAll staged)).bind fun _ _ => .done ⟨e, rfl⟩

theorem moveAll_cons
    (moved : List Path)
    (p : Path)
    (rest : List Path) :
    ∃ next : Except Fault Unit → Program (Except Fault Unit),
      (moveAll moved (p :: rest) : Program _) = Program.call (.rename (temporary p) p) next ∧
        (∀ e, Fails (next (.error e))) ∧
        next (.ok ()) = moveAll (moved ++ [p]) rest := by
  refine ⟨_, rfl, fun e => ?_, rfl⟩
  exact (returns_any (removeAll moved)).bind fun _ _ =>
    (returns_any (removeAll ((p :: rest).map temporary))).bind fun _ _ => .done ⟨e, rfl⟩

end Outputs

open Disk (destination OnWay)

/-- Files that are to be written, and a path whose directory is made first. -/
structure Job where
  path : Path
  files : List (Path × String)

namespace Job

variable {working : List String} {way : List String → Prop} {j : Job} {d d' : Disk}
  {f : Path × String}

def afterMaking (j : Job) : Except Fault Unit → Program (Except Fault Unit)
  | .error e => .done (.error e)
  | .ok () => Outputs.writeAll j.files

def afterStaging (j : Job) : Except Fault Unit → Program (Except Fault Unit)
  | .error e => .done (.error e)
  | .ok () => Outputs.moveAll [] (j.files.map (·.1))

def program (j : Job) : Program (Except Fault Unit) := Stage.makeParent j.path >>= j.afterMaking

/-- The places of a file: its own, and that of its temporary. -/
def places (working : List String) (f : Path × String) : List (List String) :=
  [destination working f.1, destination working (Outputs.temporary f.1)]

/-- Whether a place is one that a job writes to. -/
def Owns (working : List String) (j : Job) (place : List String) : Prop :=
  ∃ f ∈ j.files, place ∈ places working f

/-- What a job does to a disk: it changes places of its own unless directories are there, and makes
directories on the way. -/
def Changes (way own : List String → Prop) (d d' : Disk) : Prop :=
  d'.workingPlace = d.workingPlace ∧
    ∀ place, d'.entryAt? place = d.entryAt? place ∨
      own place ∧ d.entryAt? place ≠ some .directory ∨
      way place ∧ d.entryAt? place = none ∧ d'.entryAt? place = some .directory

/-- Whether a file has been written beside its place. -/
structure Staged (working : List String) (j : Job) (d : Disk) (f : Path × String) : Prop where
  temporary : d.entryAt? (destination working (Outputs.temporary f.1)) =
    some (.file (.regular f.2.toUTF8))
  way : ∀ place, OnWay working j.path place → d.entryAt? place = some .directory

/-- Whether a file has come to its place. Later on a directory may be made where it was first
written. -/
structure Moved (working : List String) (way : List String → Prop) (j : Job) (d : Disk)
    (f : Path × String) : Prop where
  place : d.entryAt? (destination working f.1) = some (.file (.regular f.2.toUTF8))
  temporary : d.entryAt? (destination working (Outputs.temporary f.1)) = none ∨
    way (destination working (Outputs.temporary f.1)) ∧
      d.entryAt? (destination working (Outputs.temporary f.1)) = some .directory
  way : ∀ place, OnWay working j.path place → d.entryAt? place = some .directory

section Stability

variable {own : List String → Prop}

theorem Changes.refl
    (d : Disk) :
    Changes way own d d :=
  ⟨rfl, fun _ => .inl rfl⟩

theorem Changes.mono
    {own' : List String → Prop}
    (h : Changes way own d d')
    (hown : ∀ place, own place → own' place) :
    Changes way own' d d' :=
  ⟨h.1, fun place => (h.2 place).imp_right (.imp_left (.imp_left (hown place)))⟩

theorem Changes.trans
    {d'' : Disk}
    (h : Changes way own d d')
    (h' : Changes way own d' d'') :
    Changes way own d d'' := by
  refine ⟨h'.1.trans h.1, fun place => ?_⟩
  rcases h.2 place with heq | hown | ⟨hway, hnone, hmade⟩
  · rw [← heq]
    exact h'.2 place
  · exact .inr (.inl hown)
  · rcases h'.2 place with heq' | ⟨-, hne⟩ | ⟨-, hnone', -⟩
    · exact .inr (.inr ⟨hway, hnone, heq'.trans hmade⟩)
    · exact absurd hmade hne
    · rw [hmade] at hnone'
      cases hnone'

/-- Directories stay. -/
theorem Changes.directory
    {place : List String}
    (h : Changes way own d d')
    (hplace : d.entryAt? place = some .directory) :
    d'.entryAt? place = some .directory := by
  rcases h.2 place with heq | ⟨-, hne⟩ | ⟨-, hnone, -⟩
  · exact heq.trans hplace
  · exact absurd hplace hne
  · rw [hplace] at hnone
    cases hnone

/-- Files stay at places that are not written to. -/
theorem Changes.file
    {place : List String}
    {file : File}
    (h : Changes way own d d')
    (hown : ¬ own place)
    (hplace : d.entryAt? place = some (.file file)) :
    d'.entryAt? place = some (.file file) := by
  rcases h.2 place with heq | ⟨howned, -⟩ | ⟨-, hnone, -⟩
  · exact heq.trans hplace
  · exact absurd howned hown
  · rw [hplace] at hnone
    cases hnone

/-- A file that is staged stays so while others go about their own files. -/
theorem Staged.stable
    (hf : Staged working j d f)
    (h : Changes way own d d')
    (hown : ∀ place ∈ places working f, ¬ own place) :
    Staged working j d' f :=
  ⟨h.file (hown _ (List.mem_cons_of_mem _ List.mem_cons_self)) hf.temporary,
    fun place hplace => h.directory (hf.way place hplace)⟩

/-- A file that has been moved stays in place while others go about their own files. -/
theorem Moved.stable
    (hf : Moved working way j d f)
    (h : Changes way own d d')
    (hown : ∀ place ∈ places working f, ¬ own place) :
    Moved working way j d' f := by
  have htemporary := hown _ (List.mem_cons_of_mem _ List.mem_cons_self)
  refine ⟨h.file (hown _ List.mem_cons_self) hf.place, ?_,
    fun place hplace => h.directory (hf.way place hplace)⟩
  rcases hf.temporary with hnone | ⟨hway, hdirectory⟩
  · rcases h.2 (destination working (Outputs.temporary f.1)) with
      heq | ⟨howned, -⟩ | ⟨hway, -, hmade⟩
    · exact .inl (heq.trans hnone)
    · exact absurd howned htemporary
    · exact .inr ⟨hway, hmade⟩
  · exact .inr ⟨hway, h.directory hdirectory⟩

theorem changes_write
    {p : Path}
    {contents : ByteArray}
    {root : FileTree}
    (hwritten : d.written p contents = .ok root) :
    Changes way (· = destination d.workingPlace p) d { d with root } := by
  obtain ⟨hfree, hafter⟩ := Disk.entryAt?_written hwritten
  refine ⟨rfl, fun place => ?_⟩
  by_cases hplace : place = destination d.workingPlace p
  · exact .inr (.inl ⟨hplace, hplace ▸ hfree⟩)
  · exact .inl ((hafter place).trans (if_neg hplace))

theorem changes_make
    {p : Path}
    {root : FileTree}
    (hmade : d.withDirectory p = .ok root)
    (hway : way (destination d.workingPlace p)) :
    Changes way own d { d with root } := by
  obtain ⟨hnone, hafter⟩ := Disk.entryAt?_withDirectory hmade
  refine ⟨rfl, fun place => ?_⟩
  by_cases hplace : place = destination d.workingPlace p
  · subst hplace
    exact .inr (.inr ⟨hway, hnone, (hafter _).trans (if_pos rfl)⟩)
  · exact .inl ((hafter place).trans (if_neg hplace))

/-- Renaming a file changes the two places only. -/
theorem changes_rename
    {p q : Path}
    {file : File}
    {root : FileTree}
    (hrenamed : d.renamed p q = .ok root)
    (hfile : d.entryAt? (destination d.workingPlace p) = some (.file file)) :
    Changes way (fun place => place = destination d.workingPlace q ∨
      place = destination d.workingPlace p) d { d with root } := by
  obtain ⟨hfree, hafter⟩ := Disk.entryAt?_renamed hrenamed hfile
  refine ⟨rfl, fun place => ?_⟩
  by_cases hgoal : place = destination d.workingPlace q
  · exact .inr (.inl ⟨.inl hgoal, hgoal ▸ hfree⟩)
  · by_cases horigin : place = destination d.workingPlace p
    · refine .inr (.inl ⟨.inr horigin, ?_⟩)
      rw [horigin, hfile]
      simp
    · exact .inl ((hafter place).trans (by rw [if_neg hgoal, if_neg horigin]))

end Stability

/-- How far a job has come: directories are being made, files are being written beside their places,
or moved there. -/
inductive At (working : List String) (way : List String → Prop) (j : Job) (d : Disk) :
    Program (Except Fault Unit) → Prop where
  | making {made : Program (Except Fault Unit)}
      (hmade : made.OnlyMakes fun p => way (destination working p)) :
      At working way j d (made >>= j.afterMaking)
  | staging {staged pending : List (Path × String)} (hfiles : j.files = staged ++ pending)
      (hstaged : ∀ f ∈ staged, Staged working j d f) :
      At working way j d
        (Outputs.stageAll (staged.map fun f => Outputs.temporary f.1) pending >>= j.afterStaging)
  | moving {moved staged : List (Path × String)} (hfiles : j.files = moved ++ staged)
      (hmoved : ∀ f ∈ moved, Moved working way j d f)
      (hstaged : ∀ f ∈ staged, Staged working j d f) :
      At working way j d (Outputs.moveAll (moved.map (·.1)) (staged.map (·.1)))

/-- How far a job has come is not touched by what others do. -/
theorem At.stable
    {own : List String → Prop}
    {p : Program (Except Fault Unit)}
    (hat : At working way j d p)
    (h : Changes way own d d')
    (hown : ∀ place, j.Owns working place → ¬ own place) :
    At working way j d' p := by
  have hfile : ∀ f ∈ j.files, ∀ place ∈ places working f, ¬ own place :=
    fun f hf place hplace => hown place ⟨f, hf, hplace⟩
  cases hat with
  | making hmade => exact .making hmade
  | staging hfiles hstaged =>
      rw [hfiles, List.forall_mem_append] at hfile
      exact .staging hfiles fun f hf => (hstaged f hf).stable h (hfile.1 f hf)
  | moving hfiles hmoved hstaged =>
      rw [hfiles, List.forall_mem_append] at hfile
      exact .moving hfiles (fun f hf => (hmoved f hf).stable h (hfile.1 f hf))
        fun f hf => (hstaged f hf).stable h (hfile.2 f hf)

/-- Whether a job can be done beside others: its files have places of their own, and their way is
that of the directory that is made. -/
structure Fits (working : List String) (way : List String → Prop) (j : Job) : Prop where
  apart : (j.files.flatMap (places working)).Nodup
  onWay : ∀ f ∈ j.files, ∀ place, OnWay working j.path place →
    OnWay working (Outputs.temporary f.1) place
  way : ∀ place, OnWay working j.path place → way place

theorem Fits.apart_of_mem
    {before after : List (Path × String)}
    (hj : j.Fits working way)
    (hfiles : j.files = before ++ f :: after) :
    destination working f.1 ≠ destination working (Outputs.temporary f.1) ∧
      (∀ g ∈ before, ∀ place ∈ places working g, place ∉ places working f) ∧
      ∀ g ∈ after, ∀ place ∈ places working g, place ∉ places working f := by
  have hapart := hj.apart
  rw [hfiles, List.nodup_flatMap, List.pairwise_append, List.pairwise_cons] at hapart
  obtain ⟨hnodup, -, ⟨hafter, -⟩, hbefore⟩ := hapart
  have hf := hnodup f (List.mem_append_right _ List.mem_cons_self)
  refine ⟨by simpa [places] using hf, fun g hg place hplace hf => ?_,
    fun g hg place hplace hf => ?_⟩
  · exact hbefore g hg f List.mem_cons_self hplace hf
  · exact hafter g hg hf hplace

/-- A file that can be written beside its place has its way there. -/
theorem Fits.staged_of_written
    {root : FileTree}
    (hj : j.Fits d.workingPlace way)
    (hf : f ∈ j.files)
    (hwritten : d.written (Outputs.temporary f.1) f.2.toUTF8 = .ok root) :
    Changes way (· ∈ places d.workingPlace f) d { d with root } ∧
      Staged d.workingPlace j { d with root } f := by
  have hchanges : Changes way (· ∈ places d.workingPlace f) d { d with root } :=
    (changes_write hwritten).mono fun place hplace => by simp [places, hplace]
  obtain ⟨-, goal, hgoal, -, -⟩ := Disk.written_eq_ok hwritten
  obtain ⟨-, hentries⟩ := Disk.entryAt?_written hwritten
  refine ⟨hchanges, (hentries _).trans (if_pos rfl), fun place hplace => ?_⟩
  exact hchanges.directory (Disk.entryAt?_of_onWay hgoal (hj.onWay f hf place hplace))

/-- A staged file is in place once it is renamed. -/
theorem Staged.moved_of_renamed
    {root : FileTree}
    (hf : Staged d.workingPlace j d f)
    (hne : destination d.workingPlace f.1 ≠ destination d.workingPlace (Outputs.temporary f.1))
    (hrenamed : d.renamed (Outputs.temporary f.1) f.1 = .ok root)
    (way : List String → Prop) :
    Changes way (· ∈ places d.workingPlace f) d { d with root } ∧
      Moved d.workingPlace way j { d with root } f := by
  have hchanges : Changes way (· ∈ places d.workingPlace f) d { d with root } :=
    (changes_rename hrenamed hf.temporary).mono fun place hplace => by
      simpa [places] using hplace
  obtain ⟨-, hentries⟩ := Disk.entryAt?_renamed hrenamed hf.temporary
  refine ⟨hchanges, (hentries _).trans (if_pos rfl), .inl ?_, fun place hplace => ?_⟩
  · exact (hentries _).trans ((if_neg hne.symm).trans (if_pos rfl))
  · exact hchanges.directory (hf.way place hplace)

/-- What the turn of a job comes to: it fails, or goes on and has changed nothing but its own. -/
def GoesOn (working : List String) (way : List String → Prop) (j : Job) (d : Disk)
    (turn : Program (Except Fault Unit) × Disk) : Prop :=
  turn.1.Fails ∨ At working way j turn.2 turn.1 ∧ Changes way (j.Owns working) d turn.2

/-- One step of a job that is moving its files. -/
theorem goesOn_moving
    {moved staged : List (Path × String)}
    {c : FileCall}
    {next : c.Answer → Program (Except Fault Unit)}
    (hj : j.Fits d.workingPlace way)
    (hfiles : j.files = moved ++ staged)
    (hmoved : ∀ f ∈ moved, Moved d.workingPlace way j d f)
    (hstaged : ∀ f ∈ staged, Staged d.workingPlace j d f)
    (hcall : Outputs.moveAll (moved.map (·.1)) (staged.map (·.1)) = Program.call c next) :
    GoesOn d.workingPlace way j d (next (c.run.run d).1, (c.run.run d).2) := by
  cases staged with
  | nil => cases hcall
  | cons f rest =>
      obtain ⟨after, hafter, hfail, hok⟩ :=
        Outputs.moveAll_cons (moved.map (·.1)) f.1 (rest.map (·.1))
      rw [List.map_cons, hafter] at hcall
      cases hcall
      have hrun : (FileCall.rename (Outputs.temporary f.1) f.1).run.run d =
          d.change (d.renamed (Outputs.temporary f.1) f.1) := rfl
      cases hrenamed : d.renamed (Outputs.temporary f.1) f.1 with
      | error e =>
          rw [hrun, hrenamed]
          exact .inl (hfail e)
      | ok root =>
          rw [hrun, hrenamed]
          rw [List.forall_mem_cons] at hstaged
          have hf : f ∈ j.files := by simp [hfiles]
          obtain ⟨hne, hbefore, hbehind⟩ := hj.apart_of_mem hfiles
          obtain ⟨hchanges, hfile⟩ := hstaged.1.moved_of_renamed hne hrenamed way
          refine .inr ⟨?_, hchanges.mono fun place hplace => ⟨f, hf, hplace⟩⟩
          have hat : At d.workingPlace way j { d with root }
              (Outputs.moveAll ((moved ++ [f]).map (·.1)) (rest.map (·.1))) := by
            refine .moving (by simp [hfiles]) ?_ fun g hg => ?_
            · rw [List.forall_mem_append, List.forall_mem_singleton]
              exact ⟨fun g hg => (hmoved g hg).stable hchanges (hbefore g hg), hfile⟩
            · exact (hstaged.2 g hg).stable hchanges (hbehind g hg)
          rw [List.map_append] at hat
          exact hok ▸ hat

/-- One step of a job that is writing its temporaries. -/
theorem goesOn_staging
    {staged pending : List (Path × String)}
    {c : FileCall}
    {next : c.Answer → Program (Except Fault Unit)}
    (hj : j.Fits d.workingPlace way)
    (hfiles : j.files = staged ++ pending)
    (hstaged : ∀ f ∈ staged, Staged d.workingPlace j d f)
    (hcall : (Outputs.stageAll (staged.map fun f => Outputs.temporary f.1) pending >>=
      j.afterStaging) = Program.call c next) :
    GoesOn d.workingPlace way j d (next (c.run.run d).1, (c.run.run d).2) := by
  cases pending with
  | nil =>
      rw [List.append_nil] at hfiles
      have hmoved : j.files = [] ++ staged := hfiles
      have hmove : Outputs.moveAll (([] : List (Path × String)).map (·.1)) (staged.map (·.1)) =
          Program.call c next := by
        rw [← hcall, ← hfiles]
        rfl
      exact goesOn_moving hj hmoved (List.forall_mem_nil _) hstaged hmove
  | cons f rest =>
      obtain ⟨after, hafter, hfail, hok⟩ :=
        Outputs.stageAll_cons (staged.map fun f => Outputs.temporary f.1) f.1 f.2 rest
      rw [hafter] at hcall
      cases hcall
      have hrun : (FileCall.write (Outputs.temporary f.1) f.2.toUTF8).run.run d =
          d.change (d.written (Outputs.temporary f.1) f.2.toUTF8) := rfl
      cases hwritten : d.written (Outputs.temporary f.1) f.2.toUTF8 with
      | error e =>
          rw [hrun, hwritten]
          refine .inl ((hfail e).bind fun r hr => ?_)
          obtain ⟨e, rfl⟩ := hr
          exact .done ⟨e, rfl⟩
      | ok root =>
          rw [hrun, hwritten]
          have hf : f ∈ j.files := by simp [hfiles]
          obtain ⟨-, hbefore, -⟩ := hj.apart_of_mem hfiles
          obtain ⟨hchanges, hfile⟩ := hj.staged_of_written hf hwritten
          refine .inr ⟨?_, hchanges.mono fun place hplace => ⟨f, hf, hplace⟩⟩
          have hat : At d.workingPlace way j { d with root }
              (Outputs.stageAll ((staged ++ [f]).map fun f => Outputs.temporary f.1) rest >>=
                j.afterStaging) := by
            refine .staging (by simp [hfiles]) ?_
            rw [List.forall_mem_append, List.forall_mem_singleton]
            exact ⟨fun g hg => (hstaged g hg).stable hchanges (hbefore g hg), hfile⟩
          rw [List.map_append] at hat
          change At d.workingPlace way j { d with root } (after (.ok ()) >>= j.afterStaging)
          rwa [hok]

/-- One step of a job that is making its directories. -/
theorem goesOn_making
    {made : Program (Except Fault Unit)}
    {c : FileCall}
    {next : c.Answer → Program (Except Fault Unit)}
    (hj : j.Fits d.workingPlace way)
    (hmade : made.OnlyMakes fun p => way (destination d.workingPlace p))
    (hcall : (made >>= j.afterMaking) = Program.call c next) :
    GoesOn d.workingPlace way j d (next (c.run.run d).1, (c.run.run d).2) := by
  cases hmade with
  | done answer =>
      cases answer with
      | error e => cases hcall
      | ok _ => exact @goesOn_staging way j d [] j.files c next hj rfl (List.forall_mem_nil _) hcall
  | look hnext =>
      cases hcall
      exact .inr ⟨.making (hnext _), .refl d⟩
  | @make p next' hp hnext =>
      cases hcall
      have hrun : (FileCall.makeDirectory p).run.run d = d.change (d.withDirectory p) := rfl
      rw [hrun]
      refine .inr ⟨.making (hnext _), ?_⟩
      cases hwith : d.withDirectory p with
      | error e => exact .refl d
      | ok root => exact changes_make hwith hp

/-- Each turn of a job changes only its own places. -/
theorem At.goesOn
    {c : FileCall}
    {next : c.Answer → Program (Except Fault Unit)}
    (hj : j.Fits d.workingPlace way)
    (hat : At d.workingPlace way j d (Program.call c next)) :
    GoesOn d.workingPlace way j d (next (c.run.run d).1, (c.run.run d).2) := by
  generalize hcall : Program.call c next = p at hat
  cases hat with
  | making hmade => exact goesOn_making hj hmade hcall.symm
  | staging hfiles hstaged => exact goesOn_staging hj hfiles hstaged hcall.symm
  | moving hfiles hmoved hstaged => exact goesOn_moving hj hfiles hmoved hstaged hcall.symm

/-- A job that has returned has brought its files to their places. -/
theorem At.moved
    (hat : At working way j d (.done (.ok ()))) :
    ∀ f ∈ j.files, Moved working way j d f := by
  have hmoving (moved staged : List (Path × String)) (hfiles : j.files = moved ++ staged)
      (hmoved : ∀ f ∈ moved, Moved working way j d f)
      (hdone : Outputs.moveAll (moved.map (·.1)) (staged.map (·.1)) =
        Program.done (.ok ())) : ∀ f ∈ j.files, Moved working way j d f := by
    cases staged with
    | nil =>
        rw [hfiles, List.append_nil]
        exact hmoved
    | cons f rest => cases hdone
  have hstaging (staged pending : List (Path × String)) (hfiles : j.files = staged ++ pending)
      (hdone : (Outputs.stageAll (staged.map fun f => Outputs.temporary f.1) pending >>=
        j.afterStaging) = Program.done (.ok ())) : ∀ f ∈ j.files, Moved working way j d f := by
    cases pending with
    | nil => exact hmoving [] j.files rfl (List.forall_mem_nil _) hdone
    | cons f rest => cases hdone
  generalize hdone : Program.done (Except.ok ()) = p at hat
  cases hat with
  | making hmade =>
      cases hmade with
      | done answer =>
          cases answer with
          | error e => cases hdone
          | ok _ => exact hstaging [] j.files rfl hdone.symm
      | look hnext => cases hdone
      | make hp hnext => cases hdone
  | staging hfiles hstaged => exact hstaging _ _ hfiles hdone.symm
  | moving hfiles hmoved hstaged => exact hmoving _ _ hfiles hmoved hdone.symm

/-- A job begins by making the directories that have to be there. -/
theorem at_program
    (hway : ∀ place, OnWay working j.path place → way place)
    (d : Disk) :
    At working way j d j.program := by
  refine .making ?_
  rw [Stage.makeParent]
  split
  · exact .done _
  · next q hq =>
      have hmakes : Program.OnlyMakes (fun p => OnWay working j.path (destination working p) ∧
          ∀ place, OnWay working p place → OnWay working j.path place)
          (FileStore.makeDirectories q) := by
        refine Program.onlyMakes_makeDirectoriesUpTo (fun p r hp hr => ?_) _ ?_
        · exact ⟨hp.2 _ (Disk.onWay_parent hr working), fun place hplace =>
            hp.2 place (hplace.of_parent hr)⟩
        · exact ⟨Disk.onWay_parent hq working, fun place hplace => hplace.of_parent hq⟩
      exact hmakes.mono fun p hp => hway _ hp.1

end Job

namespace Sharing

variable {working : List String} {way : List String → Prop} {jobs : List Job} {d : Disk}
  {s : Sharing (Except Fault Unit)}

/-- Whether jobs can be done side by side: each of them fits, and no two write to one place. -/
structure Fit (working : List String) (way : List String → Prop) (jobs : List Job) : Prop where
  fits : ∀ j ∈ jobs, j.Fits working way
  apart : jobs.Pairwise fun j k => ∀ place, j.Owns working place → ¬ k.Owns working place

theorem Fit.apart_of_ne
    {i k : Nat}
    {j l : Job}
    (hjobs : Fit working way jobs)
    (hj : jobs[i]? = some j)
    (hl : jobs[k]? = some l)
    (hne : i ≠ k)
    {place : List String}
    (hplace : l.Owns working place) :
    ¬ j.Owns working place := by
  obtain ⟨hi, rfl⟩ := List.getElem?_eq_some_iff.1 hj
  obtain ⟨hk, rfl⟩ := List.getElem?_eq_some_iff.1 hl
  rcases Nat.lt_or_gt_of_ne hne with hlt | hgt
  · exact fun howns => List.pairwise_iff_getElem.1 hjobs.apart i k hi hk hlt place howns hplace
  · exact List.pairwise_iff_getElem.1 hjobs.apart k i hk hi hgt place hplace

/-- What holds while jobs are done side by side and none of them fails. -/
structure Sound (working : List String) (way : List String → Prop) (jobs : List Job) (d : Disk)
    (s : Sharing (Except Fault Unit)) : Prop where
  length : s.programs.length = jobs.length
  standing : ∀ (i : Nat) (j : Job) (p : Program (Except Fault Unit)), jobs[i]? = some j →
    s.programs[i]? = some p → j.At working way s.disk p
  changes : Job.Changes way (fun place => ∃ j ∈ jobs, j.Owns working place) d s.disk

/-- Whether one of the programs can only end in a fault. -/
def HasFailed (s : Sharing (Except Fault Unit)) : Prop :=
  ∃ (k : Nat) (p : Program (Except Fault Unit)), s.programs[k]? = some p ∧ p.Fails

/-- A failure is not taken back by what others do. -/
theorem HasFailed.turn
    (hfails : s.HasFailed)
    (i : Nat) :
    (s.turn i).HasFailed := by
  obtain ⟨k, p, hp, hfails⟩ := hfails
  rcases s.turn_cases i with hturn | ⟨c, next, hcall, hturn⟩
  · rw [hturn]
    exact ⟨k, p, hp, hfails⟩
  · rw [hturn]
    by_cases hk : i = k
    · subst hk
      rw [hcall, Option.some_inj] at hp
      subst hp
      cases hfails with
      | call hnext =>
          exact ⟨i, _, List.getElem?_set_self (List.getElem?_eq_some_iff.1 hcall).1, hnext _⟩
    · exact ⟨k, p, by rw [List.getElem?_set_ne hk, hp], hfails⟩

/-- A turn keeps what holds, or makes a program fail. -/
theorem Sound.turn
    (hjobs : Fit d.workingPlace way jobs)
    (hs : Sound d.workingPlace way jobs d s)
    (i : Nat) :
    (s.turn i).HasFailed ∨ Sound d.workingPlace way jobs d (s.turn i) := by
  rcases s.turn_cases i with hturn | ⟨c, next, hcall, hturn⟩
  · rw [hturn]
    exact .inr hs
  · rw [hturn]
    have hi := (List.getElem?_eq_some_iff.1 hcall).1
    obtain ⟨j, hj⟩ : ∃ j, jobs[i]? = some j :=
      ⟨_, List.getElem?_eq_getElem (hs.length ▸ hi)⟩
    have hmem := List.mem_of_getElem? hj
    have hat := hs.standing i j _ hj hcall
    have hfits := hjobs.fits j hmem
    rw [← hs.changes.1] at hat hfits
    have hset := List.getElem?_set_self (a := next (c.run.run s.disk).1) hi
    rcases hat.goesOn hfits with hfails | ⟨hgoes, hchanges⟩
    · exact .inl ⟨i, _, hset, hfails⟩
    · rw [hs.changes.1] at hgoes hchanges
      refine .inr ⟨by simpa using hs.length, fun k l p hl hp => ?_, ?_⟩
      · by_cases hk : i = k
        · subst hk
          rw [hset, Option.some_inj] at hp
          rw [hj, Option.some_inj] at hl
          exact hl ▸ hp ▸ hgoes
        · rw [List.getElem?_set_ne hk] at hp
          exact (hs.standing k l p hl hp).stable hchanges fun place hplace =>
            hjobs.apart_of_ne hj hl hk hplace
      · exact hs.changes.trans (hchanges.mono fun place hplace => ⟨j, hmem, hplace⟩)

/-- A whole run, in any order of turns: some job has failed, or all are where they should be. -/
theorem Sound.run
    (hjobs : Fit d.workingPlace way jobs)
    (hs : Sound d.workingPlace way jobs d s)
    (order : List Nat) :
    (s.run order).HasFailed ∨ Sound d.workingPlace way jobs d (s.run order) := by
  induction order using List.reverseRecOn with
  | nil => exact .inr hs
  | append_singleton order i ih =>
      have hrun : s.run (order ++ [i]) = (s.run order).turn i := List.foldl_concat _ _ _ _
      rw [hrun]
      rcases ih with hfails | hsound
      · exact .inl (hfails.turn i)
      · exact hsound.turn hjobs i

theorem sound_start
    (hjobs : Fit d.workingPlace way jobs) :
    Sound d.workingPlace way jobs d ⟨jobs.map Job.program, d⟩ := by
  refine ⟨List.length_map _, fun i j p hj hp => ?_, .refl d⟩
  rw [List.getElem?_map, hj, Option.map_some, Option.some_inj] at hp
  subst hp
  exact Job.at_program (hjobs.fits j (List.mem_of_getElem? hj)).way d

/-- What is left when all jobs have succeeded: their files are in place, and nothing else has
changed but for directories. -/
structure Finished (way : List String → Prop) (jobs : List Job) (d d' : Disk) : Prop where
  moved : ∀ j ∈ jobs, ∀ f ∈ j.files, j.Moved d.workingPlace way d' f
  changes : Job.Changes way (fun place => ∃ j ∈ jobs, j.Owns d.workingPlace place) d d'

/-- If all jobs succeed, all their files are in place. -/
theorem finished
    {order : List Nat}
    (hjobs : Fit d.workingPlace way jobs)
    (hdone : (run ⟨jobs.map Job.program, d⟩ order).Succeeded) :
    Finished way jobs d (run ⟨jobs.map Job.program, d⟩ order).disk := by
  rcases (sound_start hjobs).run hjobs order with ⟨k, p, hp, hfails⟩ | hsound
  · rw [hdone p (List.mem_of_getElem? hp)] at hfails
    cases hfails with
    | done herror =>
        obtain ⟨e, he⟩ := herror
        cases he
  · refine ⟨fun j hj => ?_, hsound.changes⟩
    obtain ⟨i, hi⟩ := List.mem_iff_getElem?.1 hj
    have hlt : i < (run ⟨jobs.map Job.program, d⟩ order).programs.length := by
      rw [hsound.length]
      exact (List.getElem?_eq_some_iff.1 hi).1
    have hp := List.getElem?_eq_getElem hlt
    rw [hdone _ (List.getElem_mem hlt)] at hp
    exact (hsound.standing i j _ hi hp).moved

/-- Places that no job writes to are as before, if they are not directories that had to be made. -/
theorem Finished.entryAt?_of_not_owns
    {d' : Disk}
    {place : List String}
    (h : Finished way jobs d d')
    (howns : ¬ ∃ j ∈ jobs, j.Owns d.workingPlace place) :
    d'.entryAt? place = d.entryAt? place ∨
      way place ∧ d.entryAt? place = none ∧ d'.entryAt? place = some .directory := by
  rcases h.changes.2 place with heq | ⟨howned, -⟩ | hmade
  · exact .inl heq
  · exact absurd howned howns
  · exact .inr hmade

/-- The directories that the files of jobs lie in. -/
def ways (working : List String) (jobs : List Job) (place : List String) : Prop :=
  ∃ j ∈ jobs, OnWay working j.path place

/-- What is left does not depend on anything but the jobs and what was there before. -/
theorem Finished.entryAt?_eq
    {d₁ d₂ : Disk}
    (hfiles : ∀ j ∈ jobs, j.files ≠ [])
    (h₁ : Finished (ways d.workingPlace jobs) jobs d d₁)
    (h₂ : Finished (ways d.workingPlace jobs) jobs d d₂)
    (place : List String) :
    d₁.entryAt? place = d₂.entryAt? place := by
  by_cases hway : ways d.workingPlace jobs place
  · obtain ⟨j, hj, hplace⟩ := hway
    obtain ⟨f, hf⟩ := List.exists_mem_of_ne_nil _ (hfiles j hj)
    rw [(h₁.moved j hj f hf).way place hplace, (h₂.moved j hj f hf).way place hplace]
  · by_cases howns : ∃ j ∈ jobs, j.Owns d.workingPlace place
    · obtain ⟨j, hj, f, hf, hplace⟩ := howns
      have hmoved₁ := h₁.moved j hj f hf
      have hmoved₂ := h₂.moved j hj f hf
      rcases List.mem_pair.1 hplace with rfl | rfl
      · rw [hmoved₁.place, hmoved₂.place]
      · rw [hmoved₁.temporary.resolve_right fun h => hway h.1,
          hmoved₂.temporary.resolve_right fun h => hway h.1]
    · rw [(h₁.entryAt?_of_not_owns howns).resolve_right fun h => hway h.1,
        (h₂.entryAt?_of_not_owns howns).resolve_right fun h => hway h.1]

end Sharing

end BlockMarkup
