import BlockMarkup.Files.Disk
import Mathlib.Tactic

/-!
# Programs that run side by side

What is done with files can be done in any monad with a file store. Here it is done in one that
remembers the calls that are still to be made, so that several programs can take turns on one disk.
A turn is one call; a call is not interrupted.
-/

namespace BlockMarkup

/-- A call of one of the operations on files. -/
inductive FileCall where
  | workingDirectory
  | kind? (p : Path)
  | entries (p : Path)
  | read (p : Path)
  | write (p : Path) (contents : ByteArray)
  | rename (source target : Path)
  | removeFile (p : Path)
  | removeDirectory (p : Path)
  | makeDirectory (p : Path)
  | canonical (p : Path)

namespace FileCall

/-- What a call returns. -/
def Answer : FileCall → Type
  | workingDirectory => Path
  | kind? _ => Option FileTree.Kind
  | entries _ => Except Fault (List (Except Fault DirectoryEntry))
  | read _ => Except Fault ByteArray
  | write _ _ | rename _ _ | removeFile _ | removeDirectory _ | makeDirectory _ =>
      Except Fault Unit
  | canonical _ => Except Fault Path

/-- What a call does on a disk. -/
def run : (c : FileCall) → DiskM c.Answer
  | workingDirectory => FileStore.workingDirectory
  | kind? p => FileStore.kind? p
  | entries p => FileStore.entries p
  | read p => FileStore.read p
  | write p contents => FileStore.write p contents
  | rename source target => FileStore.rename source target
  | removeFile p => FileStore.removeFile p
  | removeDirectory p => FileStore.removeDirectory p
  | makeDirectory p => FileStore.makeDirectory p
  | canonical p => FileStore.canonical p

end FileCall

/-- A program over files: it has returned, or makes a call and goes on with the answer. -/
inductive Program (α : Type) where
  | done (a : α)
  | call (c : FileCall) (next : c.Answer → Program α)

namespace Program

variable {α β : Type}

/-- Goes on with what a program returns. -/
def andThen (p : Program α) (next : α → Program β) : Program β :=
  match p with
  | done a => next a
  | call c rest => call c fun answer => (rest answer).andThen next

instance : Monad Program where
  pure := done
  bind := andThen

instance : FileStore Program where
  workingDirectory := call .workingDirectory done
  kind? p := call (.kind? p) done
  entries p := call (.entries p) done
  read p := call (.read p) done
  write p contents := call (.write p contents) done
  rename source target := call (.rename source target) done
  removeFile p := call (.removeFile p) done
  removeDirectory p := call (.removeDirectory p) done
  makeDirectory p := call (.makeDirectory p) done
  canonical p := call (.canonical p) done

/-- What a program does on a disk that it has to itself. -/
def onDisk : Program α → DiskM α
  | done a => pure a
  | call c next => c.run >>= fun answer => (next answer).onDisk

theorem onDisk_call
    (c : FileCall) :
    (call c done).onDisk = c.run :=
  bind_pure _

/-- A program runs on a disk part by part. -/
theorem onDisk_bind
    {p : Program α}
    {next : α → Program β}
    {action : DiskM α}
    {after : α → DiskM β}
    (hp : p.onDisk = action)
    (hnext : ∀ a, (next a).onDisk = after a) :
    (p >>= next).onDisk = action >>= after := by
  induction p generalizing action with
  | done a =>
      rw [← hp]
      exact hnext a
  | call c rest ih =>
      rw [← hp]
      change (c.run >>= fun answer => (rest answer >>= next).onDisk) =
        (c.run >>= fun answer => (rest answer).onDisk) >>= after
      rw [bind_assoc]
      exact bind_congr fun answer => ih answer rfl

theorem onDisk_unlessDirectory
    (p : Path)
    (answer : Except Fault Unit) :
    (FileStore.unlessDirectory p answer : Program _).onDisk =
      FileStore.unlessDirectory p answer := by
  refine onDisk_bind (onDisk_bind (onDisk_call _) fun _ => rfl) fun isDirectory => ?_
  cases isDirectory <;> rfl

/-- Making directories, call by call, is making them on a disk. -/
theorem onDisk_makeDirectoriesUpTo
    (above : Nat)
    (p : Path) :
    (FileStore.makeDirectoriesUpTo above p : Program _).onDisk =
      FileStore.makeDirectoriesUpTo above p := by
  induction above using Nat.strong_induction_on generalizing p with
  | h above ih =>
      rw [FileStore.makeDirectoriesUpTo.eq_def, FileStore.makeDirectoriesUpTo.eq_def]
      simp only
      by_cases hp : p.text.isEmpty = true
      · rw [if_pos hp, if_pos hp]
        rfl
      · rw [if_neg hp, if_neg hp]
        refine onDisk_bind (onDisk_call _) fun answer => ?_
        split
        · rfl
        · split
          · next above q hq =>
              refine onDisk_bind (ih above (Nat.lt_succ_self above) q) fun below => ?_
              split
              · rfl
              · refine onDisk_bind (onDisk_call _) fun again => ?_
                split
                · rfl
                · exact onDisk_unlessDirectory p _
          · rfl
        · exact onDisk_unlessDirectory p _

variable {P : α → Prop} {Q : β → Prop} {made : Path → Prop}

/-- Whether a program can only return what has a property. -/
inductive Returns (P : α → Prop) : Program α → Prop where
  | done {a : α} (ha : P a) : Returns P (done a)
  | call {c : FileCall} {next : c.Answer → Program α} (hnext : ∀ answer, Returns P (next answer)) :
      Returns P (call c next)

theorem Returns.bind
    {p : Program α}
    {next : α → Program β}
    (hp : Returns P p)
    (hnext : ∀ a, P a → Returns Q (next a)) :
    Returns Q (p >>= next) := by
  induction hp with
  | done ha => exact hnext _ ha
  | call _ ih => exact .call ih

theorem returns_any
    (p : Program α) :
    Returns (fun _ => True) p := by
  induction p with
  | done a => exact .done trivial
  | call c next ih => exact .call ih

/-- Whether a program can only end in a fault. -/
def Fails (p : Program (Except Fault α)) : Prop := Returns (fun r => ∃ e, r = .error e) p

/-- Whether a program does nothing but look at paths and make directories of some kind. -/
inductive OnlyMakes (made : Path → Prop) : Program α → Prop where
  | done (a : α) : OnlyMakes made (done a)
  | look {p : Path} {next : (FileCall.kind? p).Answer → Program α}
      (hnext : ∀ answer, OnlyMakes made (next answer)) : OnlyMakes made (call (.kind? p) next)
  | make {p : Path} {next : (FileCall.makeDirectory p).Answer → Program α} (hp : made p)
      (hnext : ∀ answer, OnlyMakes made (next answer)) :
      OnlyMakes made (call (.makeDirectory p) next)

theorem OnlyMakes.bind
    {p : Program α}
    {next : α → Program β}
    (hp : OnlyMakes made p)
    (hnext : ∀ a, OnlyMakes made (next a)) :
    OnlyMakes made (p >>= next) := by
  induction hp with
  | done a => exact hnext a
  | look _ ih => exact .look ih
  | make hp _ ih => exact .make hp ih

theorem OnlyMakes.mono
    {made' : Path → Prop}
    {p : Program α}
    (hp : OnlyMakes made p)
    (hmade : ∀ p, made p → made' p) :
    OnlyMakes made' p := by
  induction hp with
  | done a => exact .done a
  | look _ ih => exact .look ih
  | make hp _ ih => exact .make (hmade _ hp) ih

theorem onlyMakes_unlessDirectory
    (p : Path)
    (answer : Except Fault Unit) :
    OnlyMakes made (FileStore.unlessDirectory p answer) := by
  rw [FileStore.unlessDirectory, FileStore.isDirectory]
  refine .bind (.bind (.look fun _ => .done _) fun _ => .done _) fun isDirectory => ?_
  split <;> exact .done _

/-- Making directories makes those that are asked for and those above. -/
theorem onlyMakes_makeDirectoriesUpTo
    (hparent : ∀ p q, made p → p.parent = some q → made q)
    (above : Nat)
    {p : Path}
    (hp : made p) :
    OnlyMakes made (FileStore.makeDirectoriesUpTo above p) := by
  induction above using Nat.strong_induction_on generalizing p with
  | h above ih =>
      rw [FileStore.makeDirectoriesUpTo.eq_def]
      simp only
      split
      · exact .done _
      · refine .bind (.make hp fun _ => .done _) fun answer => ?_
        split
        · exact .done _
        · split
          · next above q hq =>
              refine .bind (ih above (Nat.lt_succ_self above) (hparent p q hp hq)) fun below => ?_
              split
              · exact .done _
              · refine .bind (.make hp fun _ => .done _) fun again => ?_
                split
                · exact .done _
                · exact onlyMakes_unlessDirectory p _
          · exact .done _
        · exact onlyMakes_unlessDirectory p _

/-- Whether a program has returned without a fault. -/
def hasSucceeded : Program (Except Fault Unit) → Bool
  | done (.ok ()) => true
  | _ => false

/-- A program has succeeded when it is done without a fault. -/
theorem hasSucceeded_iff
    {p : Program (Except Fault Unit)} :
    p.hasSucceeded = true ↔ p = done (.ok ()) := by
  rcases p with ⟨e | a⟩ | ⟨c, next⟩ <;> simp [hasSucceeded]

end Program

/-- Programs and the disk that they share. -/
structure Sharing (α : Type) where
  programs : List (Program α)
  disk : Disk

namespace Sharing

variable {α : Type}

/-- The turn of a program: it makes its next call, if it has one. -/
def turn (s : Sharing α) (i : Nat) : Sharing α :=
  match s.programs[i]? with
  | some (.call c next) =>
      ⟨s.programs.set i (next (c.run.run s.disk).1), (c.run.run s.disk).2⟩
  | _ => s

/-- What is left after programs have taken turns in some order. -/
def run (s : Sharing α) (order : List Nat) : Sharing α := order.foldl turn s

/-- Whether all programs have returned without a fault. -/
def Succeeded (s : Sharing (Except Fault Unit)) : Prop := ∀ p ∈ s.programs, p = .done (.ok ())

instance (s : Sharing (Except Fault Unit)) : Decidable s.Succeeded :=
  decidable_of_iff (∀ p ∈ s.programs, p.hasSucceeded = true)
    (forall₂_congr fun _ _ => Program.hasSucceeded_iff)

/-- A turn is lost on a program that has returned, or is a call on the disk. -/
theorem turn_cases
    (s : Sharing α)
    (i : Nat) :
    s.turn i = s ∨
      ∃ c next, s.programs[i]? = some (.call c next) ∧
        s.turn i = ⟨s.programs.set i (next (c.run.run s.disk).1), (c.run.run s.disk).2⟩ := by
  rw [turn]
  split
  · next c next hprogram => exact .inr ⟨c, next, hprogram, rfl⟩
  · exact .inl rfl

theorem run_append
    (s : Sharing α)
    (first second : List Nat) :
    s.run (first ++ second) = (s.run first).run second :=
  List.foldl_append

/-- A program that takes all the turns does what it does on a disk of its own. -/
theorem exists_order_of_program
    (p : Program α)
    (before after : List (Program α))
    (d : Disk) :
    ∃ order, run ⟨before ++ p :: after, d⟩ order =
      ⟨before ++ .done (p.onDisk.run d).1 :: after, (p.onDisk.run d).2⟩ := by
  induction p generalizing d with
  | done a => exact ⟨[], rfl⟩
  | call c next ih =>
      obtain ⟨order, horder⟩ := ih (c.run.run d).1 (c.run.run d).2
      refine ⟨before.length :: order, ?_⟩
      have hturn : turn ⟨before ++ .call c next :: after, d⟩ before.length =
          ⟨before ++ next (c.run.run d).1 :: after, (c.run.run d).2⟩ := by
        simp [turn]
      change run (turn _ _) order = _
      rw [hturn, horder]
      rfl

/-- Programs that run one after the other run in one of the orders. -/
theorem exists_order_of_mapM
    {ι : Type}
    {program : ι → Program α}
    {action : ι → DiskM α}
    (hprogram : ∀ i, (program i).onDisk = action i)
    (items : List ι)
    (before : List (Program α))
    (d : Disk) :
    ∃ order, run ⟨before ++ items.map program, d⟩ order =
      ⟨before ++ (((items.mapM action).run d).1.map .done), ((items.mapM action).run d).2⟩ := by
  induction items generalizing before d with
  | nil =>
      rw [List.mapM_nil]
      exact ⟨[], rfl⟩
  | cons i rest ih =>
      obtain ⟨first, hfirst⟩ := exists_order_of_program (program i) before (rest.map program) d
      rw [hprogram] at hfirst
      obtain ⟨second, hsecond⟩ := ih (before ++ [.done ((action i).run d).1]) ((action i).run d).2
      rw [List.append_assoc, List.append_assoc] at hsecond
      refine ⟨first ++ second, ?_⟩
      rw [run_append, List.map_cons, hfirst, List.mapM_cons]
      exact hsecond

end Sharing

end BlockMarkup
