-- The identity of a spoke on disk: a save replaces three files one after another, and the
-- next start loads what it finds.
import PromFleet.Identity

namespace prom_fleet.identity_files

open List

/-- The files of an identity: `tls.key`, `tls.crt` and `ca.crt`. -/
inductive File where
  | clientKey
  | clientCert
  | caBundle
  deriving DecidableEq

/-- An identity that is saved: none of its parts is empty. -/
structure Triple where
  file : File → Bytes
  complete : ∀ f, file f ≠ []

/-- The files with their temporary names beside them. An absent file reads as empty. -/
structure Disk where
  files : File → Bytes
  tmp : File → Bytes

inductive LoadErr where
  | unreadable
  | noIdentity
  deriving DecidableEq

/-- `fileIdentityStore.Load`, where the files in `bad` cannot be read. -/
def load (bad : File → Bool) (d : Disk) : Except LoadErr (File → Bytes) :=
  if bad .clientKey || bad .clientCert || bad .caBundle then .error .unreadable
  else if d.files .clientKey = [] ∨ d.files .clientCert = [] then .error .noIdentity
  else .ok d.files

inductive FileOp where
  | writeFile (f : File) (data : Bytes)
  | rename (f : File)

def FileOp.apply (d : Disk) : FileOp → Disk
  | .writeFile f data => { d with tmp := Function.update d.tmp f data }
  | .rename f => { d with files := Function.update d.files f (d.tmp f) }

/-- The file operations of `fileIdentityStore.Save`, which visits a map of the files in the
order `order`. -/
def saveOps (order : List File) (data : File → Bytes) : List FileOp :=
  order.flatMap fun f => if data f = [] then [] else [.writeFile f (data f), .rename f]

/-- A save that a crash or an error stops after `done` file operations. A failed `MkdirAll`
is one that stops at once. -/
structure Attempt where
  identity : Triple
  order : List File
  done : Nat
  visits : order.Perm [.clientKey, .clientCert, .caBundle]

def Attempt.run (a : Attempt) (d : Disk) : Disk :=
  ((saveOps a.order a.identity.file).take a.done).foldl FileOp.apply d

/-- The save is not stopped between its first and its last replacement: the second of its six
file operations is the first one that replaces a file. -/
def Attempt.Whole (a : Attempt) : Prop := a.done < 2 ∨ 6 ≤ a.done

variable {order : List File} {t : Triple} {d : Disk} {a : Attempt}

theorem saveOps_complete :
    saveOps order t.file = order.flatMap fun f => [.writeFile f (t.file f), .rename f] := by
  simp [saveOps, t.complete]

theorem length_saveOps : (saveOps order t.file).length = 2 * order.length := by
  rw [saveOps_complete]
  induction order with
  | nil => rfl
  | cons f order ih =>
    rw [flatMap_cons, length_append, ih, length_cons]
    simp only [length_cons, length_nil]
    omega

/-- A save that comes to its end has replaced the files that it visits. -/
theorem files_saved (f : File) : ((saveOps order t.file).foldl FileOp.apply d).files f =
      if f ∈ order then t.file f else d.files f := by
  rw [saveOps_complete]
  induction order generalizing d with
  | nil => rfl
  | cons g order ih =>
    rw [flatMap_cons, foldl_append, ih]
    by_cases hg : f = g
    · simp [FileOp.apply, hg]
    · simp [FileOp.apply, hg]

/-- A save that stops before its first replacement leaves the files alone. -/
theorem files_unsaved {n : Nat} (hn : n < 2) :
    (((saveOps order t.file).take n).foldl FileOp.apply d).files = d.files := by
  rw [saveOps_complete]
  cases order with
  | nil => simp
  | cons f order =>
    match n, hn with
    | 0, _ => rfl
    | 1, _ => rfl

theorem Attempt.Whole.files_run (h : a.Whole) :
    (a.run d).files = d.files ∨ (a.run d).files = a.identity.file := by
  rcases h with h | h
  · exact .inl (files_unsaved h)
  right
  funext f
  have hall : f ∈ a.order := a.visits.mem_iff.mpr (by cases f <;> simp)
  have hlen : (saveOps a.order a.identity.file).length ≤ a.done := by
    rw [length_saveOps, a.visits.length_eq]
    exact h
  unfold Attempt.run
  rw [take_of_length_le hlen, files_saved, if_pos hall]

/-- After any number of saves, none of which was stopped between two replacements, the next
start loads the identity that was there or one of those that were saved. -/
theorem interrupted_saves_leave_one_identity (old : Triple) (d : Disk) (hold : d.files = old.file)
    (attempts : List Attempt) (hwhole : ∀ a ∈ attempts, a.Whole) :
    ∃ t ∈ old :: attempts.map Attempt.identity,
      load (fun _ => false) (attempts.foldl (fun d a => a.run d) d) = .ok t.file := by
  induction attempts generalizing old d with
  | nil =>
    refine ⟨old, mem_singleton_self old, ?_⟩
    simp [load, hold, old.complete]
  | cons a attempts ih =>
    have hrest := fun b hb => hwhole b (mem_cons_of_mem a hb)
    rcases (hwhole a mem_cons_self).files_run with hsame | hnew
    · obtain ⟨t, ht, hload⟩ := ih old (a.run d) (hsame.trans hold) hrest
      rcases mem_cons.mp ht with rfl | ht
      · exact ⟨t, mem_cons_self, hload⟩
      · exact ⟨t, mem_cons_of_mem _ (mem_cons_of_mem _ ht), hload⟩
    · obtain ⟨t, ht, hload⟩ := ih a.identity (a.run d) hnew hrest
      exact ⟨t, mem_cons_of_mem _ ht, hload⟩

/-- An identity of one byte in each file. -/
def byteOf (x : UInt8) : Triple := ⟨fun _ => [x], fun _ => by simp⟩

def diskOf (t : Triple) : Disk := ⟨t.file, fun _ => []⟩

def firstFiles (done : Nat) : Attempt :=
  ⟨byteOf 2, [.clientKey, .clientCert, .caBundle], done, .refl _⟩

/-- One save stops before it replaces a file, and the next one comes to its end. -/
theorem a_second_save_replaces_the_identity :
    ∃ t ∈ byteOf 1 :: [firstFiles 1, firstFiles 6].map Attempt.identity, load (fun _ => false)
        ([firstFiles 1, firstFiles 6].foldl (fun d a => a.run d) (diskOf (byteOf 1))) =
          .ok t.file :=
  interrupted_saves_leave_one_identity (byteOf 1) (diskOf (byteOf 1)) rfl _ (by
    simp [Attempt.Whole, firstFiles])

/-- A crash behind the first replacement leaves the new key beside the old certificate. -/
theorem a_crash_mixes_two_identities :
    ∃ files, load (fun _ => false) ((firstFiles 2).run (diskOf (byteOf 1))) = .ok files ∧
      files .clientKey = [2] ∧ files .clientCert = [1] ∧
      files ≠ (byteOf 1).file ∧ files ≠ (byteOf 2).file := by
  refine ⟨_, rfl, rfl, rfl, fun h => ?_, fun h => ?_⟩
  · exact absurd (congrFun h .clientKey) (by decide)
  · exact absurd (congrFun h .clientCert) (by decide)

end prom_fleet.identity_files
