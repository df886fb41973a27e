import Gradual.Project.Store
import Gradual.Proofs.NameMaps

/-! The files of a store. Where a path leads, if it leads anywhere, does not depend on what is on the disk;
making directories changes no file, and writing a file changes only that one. So an entry that is read from a
store was there before, or is the one that was stored last. -/

namespace Gradual

namespace Disk

/-- The place that the parts of a path lead to from a place. -/
def reached (here : Place) : List Text → Place
  | [] => here
  | part :: rest =>
    if part = "" ∨ part = "." then reached here rest
    else if part = ".." then reached here.tail rest
    else reached (part :: here) rest

/-- The place that a path leads to, if it leads anywhere. -/
def goal (d : Disk) (path : Text) : Place :=
  reached (if Path.isAbsolute path then [] else placeOf d.workingDirectory) (Path.parts path)

variable {d d' : Disk} {path : Text}

theorem eq_reached_of_follow {here place : Place} {parts : List Text} (h : d.follow here parts = .ok place) :
    place = reached here parts := by
  induction parts generalizing here with
  | nil =>
      cases h
      rfl
  | cons part rest ih =>
      rw [follow] at h
      rw [reached]
      split at h
      · cases h
      · cases h
      · split at h
        · next hstay =>
          rw [if_pos hstay]
          exact ih h
        · next hstay =>
          rw [if_neg hstay]
          split at h
          · next hup =>
            rw [if_pos hup]
            exact ih h
          · next hup =>
            rw [if_neg hup]
            split at h
            · cases h
            · exact ih h

theorem eq_goal_of_locate {place : Place} (h : d.locate path = .ok place) : place = d.goal path := by
  unfold locate locateFrom at h
  split at h
  · cases h
  · split at h
    · cases h
    · split at h
      · cases h
      · exact eq_reached_of_follow h

theorem get?_of_read {text : Text} (h : d.read path = .ok text) :
    d.files.get? (pathOf (d.goal path)) = some text := by
  unfold read find at h
  split at h
  · next contents hfind =>
    cases h
    split at hfind
    · cases hfind
    · next place hplace =>
      rw [← eq_goal_of_locate hplace]
      split at hfind
      · next entry hentry =>
        cases hfind
        unfold entry? at hentry
        split at hentry
        · cases hentry
        · split at hentry
          · next hget =>
            cases hentry
            exact hget
          · split at hentry <;> cases hentry
      · cases hfind
  · cases h
  · cases h

/-- A disk with the files of another one, seen from the same directory. -/
structure SameFiles (d d' : Disk) : Prop where
  workingDirectory : d'.workingDirectory = d.workingDirectory
  files : d'.files = d.files

theorem SameFiles.trans {d'' : Disk} (h : SameFiles d d') (h' : SameFiles d' d'') : SameFiles d d'' :=
  ⟨h'.workingDirectory.trans h.workingDirectory, h'.files.trans h.files⟩

theorem sameFiles_makeDirectory (d : Disk) (path : Text) : SameFiles d (d.makeDirectory path).2 := by
  unfold makeDirectory
  split
  · exact ⟨rfl, rfl⟩
  · split
    · exact ⟨rfl, rfl⟩
    · split <;> exact ⟨rfl, rfl⟩

theorem sameFiles_makeDirectoriesWithin (fuel : Nat) (d : Disk) (path : Text) :
    SameFiles d (makeDirectoriesWithin fuel d path).2 := by
  induction fuel generalizing path with
  | zero => exact ⟨rfl, rfl⟩
  | succ fuel ih =>
      rw [makeDirectoriesWithin]
      split
      · exact ⟨rfl, rfl⟩
      · exact ⟨rfl, rfl⟩
      · split
        · exact sameFiles_makeDirectory d path
        · have hparent := ih (dropLastPart path)
          split
          · next d' hmade =>
            rw [hmade] at hparent
            exact hparent.trans (sameFiles_makeDirectory d' path)
          · next d' hmade =>
            rw [hmade] at hparent
            exact hparent

theorem files_write (d : Disk) (path contents : Text) :
    (d.write path contents).2.workingDirectory = d.workingDirectory ∧
      ((d.write path contents).2.files = d.files ∨
        ∃ p, (d.write path contents).2.files = d.files.insert p contents) := by
  unfold write
  split
  · exact ⟨rfl, Or.inl rfl⟩
  · split
    · exact ⟨rfl, Or.inl rfl⟩
    · exact ⟨rfl, Or.inr ⟨_, rfl⟩⟩

end Disk

namespace EntryStore

variable {s : EntryStore} {d : Disk} {module key : Text} {entry : CacheEntry}

/-- What lies where the entry of a module belongs, whether or not a path leads there yet. -/
def textAt (s : EntryStore) (d : Disk) (module : Text) : Option Text :=
  d.files.get? (Disk.pathOf (d.goal (s.fileOf module)))

theorem exists_textAt_of_get (h : s.get d module key = some entry) :
    ∃ text, s.textAt d module = some text ∧ CacheEntry.ofFileText text = some entry ∧ entry.key = key := by
  unfold get at h
  split at h
  · next text hread =>
    obtain ⟨hentry, hanswers⟩ := Option.filter_eq_some_iff.mp h
    refine ⟨text, Disk.get?_of_read hread, hentry, ?_⟩
    exact beq_iff_eq.mp (Bool.and_eq_true_iff.mp hanswers).1
  · cases h

theorem textAt_of_files {d' : Disk} {m text : Text} (hwd : d'.workingDirectory = d.workingDirectory)
    (h : s.textAt d' m = some text) : d'.files.get? (Disk.pathOf (d.goal (s.fileOf m))) = some text := by
  rw [textAt, Disk.goal, hwd] at h
  exact h

/-- After an entry was stored, or the attempt failed, every file of the store holds what it held before or
the entry. -/
theorem textAt_put {m text : Text} (h : s.textAt (s.put d module entry).2 m = some text) :
    text = entry.fileText ∨ s.textAt d m = some text := by
  unfold put at h
  have hmade := Disk.sameFiles_makeDirectoriesWithin (s.directory.length + 1) d s.directory
  rw [← Disk.makeDirectories] at hmade
  split at h
  · next e d₁ heq =>
    rw [heq] at hmade
    have hget := textAt_of_files hmade.workingDirectory h
    rw [hmade.files] at hget
    exact Or.inr hget
  · next d₁ heq =>
    rw [heq] at hmade
    obtain ⟨hwd, hfiles⟩ := Disk.files_write d₁ (s.fileOf module) entry.fileText
    have hkept : ∀ d₂ : Disk, (d₁.write (s.fileOf module) entry.fileText).2 = d₂ → s.textAt d₂ m = some text →
        text = entry.fileText ∨ s.textAt d m = some text := by
      rintro d₂ rfl htext
      have hget := textAt_of_files (hwd.trans hmade.workingDirectory) htext
      rcases hfiles with hfiles | ⟨p, hfiles⟩
      · rw [hfiles, hmade.files] at hget
        exact Or.inr hget
      · rw [hfiles, NameMap.get?_insert, hmade.files] at hget
        split at hget
        · exact Or.inl (Option.some.inj hget).symm
        · exact Or.inr hget
    split at h
    · have hget := textAt_of_files hmade.workingDirectory h
      rw [hmade.files] at hget
      exact Or.inr hget
    · split at h
      · next heq' => exact hkept _ (congrArg Prod.snd heq') h
      · next heq' => exact hkept _ (congrArg Prod.snd heq') h

end EntryStore

end Gradual
