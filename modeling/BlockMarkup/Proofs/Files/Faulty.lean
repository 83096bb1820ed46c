import BlockMarkup.Proofs.Files.Disk
import Mathlib.Tactic

/-!
# Disks that fail

On a faulty disk every write and every rename may be struck by a fault, in any pattern. A call that
is struck changes nothing, and everything else does what it does on a disk that works. The disk also
remembers at which paths files have been put, so that it can be said what has to be taken away
again.
-/

namespace BlockMarkup

namespace Disk

variable {d d' : Disk} {p q : Path} {root : FileTree} {contents : ByteArray}

/-- Whether a path can be followed to its end and may be the path of a file. -/
def Leads (d : Disk) (p : Path) : Prop :=
  d.place p = .ok (destination d.workingPlace p) ∧ endsInSlash p = false

theorem follow_of_directories
    (hdirectory : ∀ place, d.entryAt? place = some .directory → d'.entryAt? place = some .directory)
    {place goal route : List String}
    (hgoal : d.follow place route = .ok goal) :
    d'.follow place route = .ok goal := by
  induction route generalizing place with
  | nil =>
      rw [follow] at hgoal ⊢
      exact hgoal
  | cons name route ih =>
      obtain ⟨entries, hentries⟩ :=
        FileTree.entryAt?_eq_directory_iff.1 (hdirectory place (follow_cons hgoal).1)
      have hplace : d'.at? place = some (.directory entries) := hentries
      rw [follow] at hgoal ⊢
      rw [hplace]
      simp only
      split at hgoal
      · cases hgoal
      · cases hgoal
      · split_ifs at hgoal ⊢
        · exact ih hgoal
        · exact ih hgoal
        · exact ih hgoal

/-- Where paths lead depends on the directories only. -/
theorem Leads.of_directories
    (hp : d.Leads p)
    (hworking : d'.workingPlace = d.workingPlace)
    (hdirectory : ∀ place,
      d.entryAt? place = some .directory → d'.entryAt? place = some .directory) :
    d'.Leads p := by
  obtain ⟨hplace, hslash⟩ := hp
  refine ⟨?_, hslash⟩
  rw [hworking]
  rw [place] at hplace ⊢
  simp only [hworking]
  split_ifs at hplace ⊢ <;> exact follow_of_directories hdirectory hplace

theorem leads_of_written
    (hwritten : d.written p contents = .ok root) :
    d.Leads p := by
  obtain ⟨hslash, goal, hplace, -, -⟩ := written_eq_ok hwritten
  exact ⟨eq_destination hplace ▸ hplace, hslash⟩

/-- A path without names ends in a slash. -/
theorem endsInSlash_of_names
    (hnames : names p = [])
    (htext : p.text ≠ "") :
    endsInSlash p = true := by
  have hpieces : ∀ piece ∈ p.pieces, piece = [] := by
    simpa [names] using hnames
  have hslashes : ∀ c ∈ p.text.toList ++ ['/'], c = '/' := by
    rw [← Text.flatMap_splitAt '/' p.text.toList]
    intro c hc
    obtain ⟨piece, hpiece, hc⟩ := List.mem_flatMap.1 hc
    rw [hpieces piece hpiece] at hc
    simpa using hc
  have hlist : p.text.toList ≠ [] := by simpa using htext
  rw [endsInSlash, List.getLast?_eq_some_getLast hlist,
    hslashes _ (List.mem_append_left _ (List.getLast_mem hlist))]
  rfl

/-- A path that leads to a file does not lead to the root. -/
theorem Leads.destination_ne_nil
    (hp : d.Leads p)
    (hfree : d.entryAt? (destination d.workingPlace p) ≠ some .directory) :
    destination d.workingPlace p ≠ [] := by
  intro hnil
  obtain ⟨htext, hfollow⟩ := place_eq_ok hp.1
  rcases parent_of_follow hfollow with hnames | hdirectory | hparent
  · have hslash := hp.2
    rw [endsInSlash_of_names hnames htext] at hslash
    cases hslash
  · exact hfree hdirectory
  · rw [hnil] at hfree hparent
    exact hfree hparent

/-- What lies at each place after a file that a path leads to has been removed, if it is there. -/
theorem Leads.entryAt?_withoutFile
    (hp : d.Leads p)
    (hfree : d.entryAt? (destination d.workingPlace p) ≠ some .directory)
    (other : List String) :
    (d.change (d.withoutFile p)).2.entryAt? other =
      if other = destination d.workingPlace p then none else d.entryAt? other := by
  cases hentry : d.entryAt? (destination d.workingPlace p) with
  | none =>
      have hnamed : d.named? p = .error .notFound := by
        rw [named?, reach, hp.1]
        simp [entryAt?_eq_none_iff.1 hentry]
      have hsame : (d.change (d.withoutFile p)).2 = d := by
        rw [withoutFile, hnamed]
        rfl
      rw [hsame]
      split_ifs with hother
      · rw [hother, hentry]
      · rfl
  | some entry =>
      cases entry with
      | directory => exact absurd hentry hfree
      | file f =>
          have hat : d.at? (destination d.workingPlace p) = some (.file f) :=
            FileTree.entryAt?_eq_file_iff.1 hentry
          have hnamed : d.named? p = .ok (destination d.workingPlace p, .file f) := by
            rw [named?, reach, hp.1]
            simp [hat, hp.2]
          have hremoved : (d.change (d.withoutFile p)).2.entryAt? other =
              (d.root.remove (destination d.workingPlace p)).entryAt? other := by
            rw [withoutFile, hnamed]
            rfl
          rw [hremoved, FileTree.entryAt?_remove (hp.destination_ne_nil hfree)]
          by_cases hother : other = destination d.workingPlace p
          · rw [if_pos hother, if_pos (hother ▸ List.prefix_refl _)]
          · rw [if_neg hother]
            split_ifs with hprefix
            · exact (FileTree.entryAt?_below hfree hprefix hother).symm
            · rfl

/-- A file that is renamed to another place gets there by a path that leads there. -/
theorem leads_of_renamed
    {f : File}
    (hrenamed : d.renamed p q = .ok root)
    (hfile : d.entryAt? (destination d.workingPlace p) = some (.file f))
    (hne : destination d.workingPlace p ≠ destination d.workingPlace q) :
    d.Leads q := by
  rw [renamed, named?_of_renamed hrenamed hfile] at hrenamed
  simp only at hrenamed
  split at hrenamed
  · cases hrenamed
  · next goal hgoal =>
      have hdestination := eq_destination hgoal
      subst hdestination
      refine ⟨hgoal, ?_⟩
      split at hrenamed
      · cases hrenamed
      · contradiction
      · contradiction
      · contradiction
      · rw [if_neg hne] at hrenamed
        split_ifs at hrenamed with hslash
        exact Bool.eq_false_iff.2 hslash

theorem exists_file_of_renamed
    (hrenamed : d.renamed p q = .ok root)
    (hfree : d.entryAt? (destination d.workingPlace p) ≠ some .directory) :
    ∃ f, d.entryAt? (destination d.workingPlace p) = some (.file f) := by
  rw [renamed] at hrenamed
  split at hrenamed
  · cases hrenamed
  · next origin t hnamed =>
      obtain ⟨hplace, hat⟩ := reach_eq_ok hnamed
      rw [← eq_destination hplace] at hfree ⊢
      cases t with
      | file f => exact ⟨f, FileTree.entryAt?_eq_file_iff.2 hat⟩
      | directory entries =>
          exact absurd (FileTree.entryAt?_eq_directory_iff.2 ⟨entries, hat⟩) hfree

end Disk

/-- A disk that faults may strike, and what has been put on it. -/
structure FaultyDisk where
  disk : Disk
  /-- The fault that strikes the next write or rename, the one after it, and so on. -/
  strikes : Nat → Option Fault
  /-- The paths at which files have been put, the first one first. -/
  filled : List Path

/-- Programs that run on a faulty disk. -/
abbrev FaultyDiskM := StateM FaultyDisk

namespace FaultyDisk

/-- Does what cannot be struck. -/
def calmly {α : Type} (action : DiskM α) : FaultyDiskM α :=
  modifyGet fun s => ((action.run s.disk).1, { s with disk := (action.run s.disk).2 })

/-- What comes of putting a file at a path: a fault strikes, or it is done on the disk. -/
def attempt (s : FaultyDisk) (p : Path) (action : DiskM (Except Fault Unit)) :
    Except Fault Unit × FaultyDisk :=
  let strikes := fun k => s.strikes (k + 1)
  match s.strikes 0 with
  | some e => (.error e, { s with strikes })
  | none =>
    match action.run s.disk with
    | (.error e, disk) => (.error e, { s with disk, strikes })
    | (.ok (), disk) => (.ok (), { disk, strikes, filled := s.filled ++ [p] })

def fill (p : Path) (action : DiskM (Except Fault Unit)) : FaultyDiskM (Except Fault Unit) :=
  modifyGet fun s => s.attempt p action

instance : FileStore FaultyDiskM where
  workingDirectory := calmly FileStore.workingDirectory
  kind? p := calmly (FileStore.kind? p)
  entries p := calmly (FileStore.entries p)
  read p := calmly (FileStore.read p)
  write p contents := fill p (FileStore.write p contents)
  rename source target := fill target (FileStore.rename source target)
  removeFile p := calmly (FileStore.removeFile p)
  removeDirectory p := calmly (FileStore.removeDirectory p)
  makeDirectory p := calmly (FileStore.makeDirectory p)
  canonical p := calmly (FileStore.canonical p)

variable {d : Disk} {s : FaultyDisk} {p q : Path}

/-- Putting a file somewhere fails and changes nothing, or is done on the disk. -/
theorem fill_cases
    {action : DiskM (Except Fault Unit)}
    {change : Except Fault FileTree}
    (haction : action.run s.disk = s.disk.change change) :
    ∃ strikes, (∃ e, (fill p action).run s = (.error e, { s with strikes })) ∨
      ∃ root, change = .ok root ∧ (fill p action).run s =
        (.ok (), ⟨{ s.disk with root }, strikes, s.filled ++ [p]⟩) := by
  have hrun : (fill p action).run s = s.attempt p action := rfl
  refine ⟨fun k => s.strikes (k + 1), ?_⟩
  rw [hrun, attempt]
  cases hstrike : s.strikes 0 with
  | some e => exact .inl ⟨e, rfl⟩
  | none =>
      rw [haction]
      cases change with
      | error e => exact .inl ⟨e, rfl⟩
      | ok root => exact .inr ⟨root, rfl, rfl⟩

/-- A write is struck and changes nothing, or it puts a file and is remembered. -/
theorem write_cases
    (s : FaultyDisk)
    (p : Path)
    (text : String) :
    ∃ strikes, (∃ e, (FileStore.writeText p text : FaultyDiskM _).run s =
        (.error e, { s with strikes })) ∨
      ∃ root, s.disk.written p text.toUTF8 = .ok root ∧
        (FileStore.writeText p text : FaultyDiskM _).run s =
          (.ok (), ⟨{ s.disk with root }, strikes, s.filled ++ [p]⟩) :=
  fill_cases rfl

/-- A rename is struck and changes nothing, or it moves a file and is remembered. -/
theorem rename_cases
    (s : FaultyDisk)
    (p q : Path) :
    ∃ strikes, (∃ e, (FileStore.rename p q : FaultyDiskM _).run s =
        (.error e, { s with strikes })) ∨
      ∃ root, s.disk.renamed p q = .ok root ∧
        (FileStore.rename p q : FaultyDiskM _).run s =
          (.ok (), ⟨{ s.disk with root }, strikes, s.filled ++ [q]⟩) :=
  fill_cases rfl

open Disk (destination)

/-- What holds of a disk on which nothing was done since `d` but putting files: the directories are
where they were, and so is everything at other places than those of the files. -/
structure FilledFrom (d : Disk) (s : FaultyDisk) : Prop where
  working : s.disk.workingPlace = d.workingPlace
  directories : ∀ place,
    s.disk.entryAt? place = some .directory ↔ d.entryAt? place = some .directory
  leads : ∀ p ∈ s.filled, s.disk.Leads p
  free : ∀ p ∈ s.filled, d.entryAt? (destination d.workingPlace p) ≠ some .directory
  outside : ∀ place, place ∉ s.filled.map (destination d.workingPlace) →
    s.disk.entryAt? place = d.entryAt? place

namespace FilledFrom

variable {root : FileTree} {strikes : Nat → Option Fault}

theorem start
    (d : Disk)
    (strikes : Nat → Option Fault) :
    FilledFrom d ⟨d, strikes, []⟩ :=
  ⟨rfl, fun _ => .rfl, List.forall_mem_nil _, List.forall_mem_nil _, fun _ _ => rfl⟩

theorem struck
    (h : FilledFrom d s)
    (strikes : Nat → Option Fault) :
    FilledFrom d { s with strikes } :=
  ⟨h.working, h.directories, h.leads, h.free, h.outside⟩

/-- One more file has been put somewhere, and nothing else has changed but the places of files. -/
theorem step
    (h : FilledFrom d s)
    (hp : s.disk.Leads p)
    (hfree : s.disk.entryAt? (destination d.workingPlace p) ≠ some .directory)
    (hdirectories : ∀ place,
      root.entryAt? place = some .directory ↔ s.disk.entryAt? place = some .directory)
    (houtside : ∀ place, place ≠ destination d.workingPlace p →
      place ∉ s.filled.map (destination d.workingPlace) →
      root.entryAt? place = s.disk.entryAt? place) :
    FilledFrom d ⟨{ s.disk with root }, strikes, s.filled ++ [p]⟩ := by
  have hstay : ∀ q, s.disk.Leads q → Disk.Leads { s.disk with root } q := fun q hq =>
    hq.of_directories rfl fun place hplace => (hdirectories place).2 hplace
  refine ⟨h.working, fun place => (hdirectories place).trans (h.directories place), ?_, ?_, ?_⟩
  · rw [List.forall_mem_append, List.forall_mem_singleton]
    exact ⟨fun q hq => hstay q (h.leads q hq), hstay p hp⟩
  · rw [List.forall_mem_append, List.forall_mem_singleton]
    exact ⟨h.free, fun hdirectory => hfree ((h.directories _).2 hdirectory)⟩
  · intro place hplace
    rw [List.map_append, List.mem_append, not_or] at hplace
    have hne : place ≠ destination d.workingPlace p := by simpa using hplace.2
    exact (houtside place hne hplace.1).trans (h.outside place hplace.1)

/-- One write keeps account of what has been filled. -/
theorem write
    {contents : ByteArray}
    (h : FilledFrom d s)
    (hwritten : s.disk.written p contents = .ok root) :
    FilledFrom d ⟨{ s.disk with root }, strikes, s.filled ++ [p]⟩ := by
  obtain ⟨hfree, hentries⟩ := Disk.entryAt?_written hwritten
  rw [h.working] at hfree hentries
  refine h.step (Disk.leads_of_written hwritten) hfree (fun place => ?_) fun place hne _ => ?_
  · rw [hentries]
    split_ifs with hplace
    · exact iff_of_false (by simp) (hplace ▸ hfree)
    · rfl
  · rw [hentries, if_neg hne]

/-- What lies at each place after one of the files has been renamed. -/
theorem entryAt?_renamed
    (h : FilledFrom d s)
    (hp : p ∈ s.filled)
    (hrenamed : s.disk.renamed p q = .ok root) :
    ∃ f, s.disk.entryAt? (destination d.workingPlace p) = some (.file f) ∧
      s.disk.entryAt? (destination d.workingPlace q) ≠ some .directory ∧
      ∀ place, root.entryAt? place =
        if place = destination d.workingPlace q then some (.file f)
        else if place = destination d.workingPlace p then none
        else s.disk.entryAt? place := by
  have hsource : s.disk.entryAt? (destination s.disk.workingPlace p) ≠ some .directory := by
    rw [h.working]
    exact fun hdirectory => h.free p hp ((h.directories _).1 hdirectory)
  obtain ⟨f, hfile⟩ := Disk.exists_file_of_renamed hrenamed hsource
  have hentries := Disk.entryAt?_renamed hrenamed hfile
  rw [h.working] at hfile hentries
  exact ⟨f, hfile, hentries⟩

/-- One rename keeps account of what has been filled. -/
theorem rename
    (h : FilledFrom d s)
    (hp : p ∈ s.filled)
    (hne : destination d.workingPlace p ≠ destination d.workingPlace q)
    (hrenamed : s.disk.renamed p q = .ok root) :
    FilledFrom d ⟨{ s.disk with root }, strikes, s.filled ++ [q]⟩ := by
  obtain ⟨f, hfile, hfree, hentries⟩ := h.entryAt?_renamed hp hrenamed
  have hleads : s.disk.Leads q := by
    rw [← h.working] at hfile hne
    exact Disk.leads_of_renamed hrenamed hfile hne
  refine h.step hleads hfree (fun place => ?_) fun place hplace hfilled => ?_
  · rw [hentries]
    split_ifs with hgoal horigin
    · exact iff_of_false (by simp) (hgoal ▸ hfree)
    · exact iff_of_false (by simp) (by simp [horigin, hfile])
    · rfl
  · have horigin : place ≠ destination d.workingPlace p :=
      fun heq => hfilled (heq ▸ List.mem_map_of_mem hp)
    rw [hentries, if_neg hplace, if_neg horigin]

end FilledFrom

end FaultyDisk

end BlockMarkup
