import DelayInjection.Proofs.Disk.Bytes

-- Which files an operation can change: those that its own path leads to, whatever other paths lead
-- to them. The paths are followed on the disk afterwards, where more of them lead somewhere,
-- because directories are only ever added.

namespace DelayInjection.Disk

-- Whether one of some paths leads to a key.
def Reached (disk : Disk) (paths : List String) (key : FileKey) : Prop :=
  ∃ path ∈ paths, disk.resolveText path = .ok key

-- Whether a path leads to none of the files that some paths lead to.
def Apart (disk : Disk) (path : String) (paths : List String) : Prop :=
  ∀ key, disk.resolveText path = .ok key → ¬ disk.Reached paths key

-- All directories are still there, guarded as before, and away from some paths the files are the
-- same.
structure ChangesOnly (paths : List String) (disk disk' : Disk) : Prop where
  directories : disk.KeepsDirectories disk'
  guarded : disk'.guarded = disk.guarded
  files : ∀ key, ¬ disk'.Reached paths key → ∀ node, node ≠ .directory →
    (disk'.node? key = some node ↔ disk.node? key = some node)

section

variable {disk disk' disk'' : Disk} {paths more : List String} {path added : String}
  {key : FileKey}

theorem Reached.keeps (h : disk.Reached paths key) (hk : disk.KeepsDirectories disk') :
    disk'.Reached paths key := by
  obtain ⟨path, hm, hkey⟩ := h
  exact ⟨path, hm, resolveText_keeps hk hkey⟩

theorem Reached.mono (h : disk.Reached paths key) (hsub : paths ⊆ more) :
    disk.Reached more key := by
  obtain ⟨path, hm, hkey⟩ := h
  exact ⟨path, hsub hm, hkey⟩

theorem Apart.before (h : disk'.Apart path paths) (hk : disk.KeepsDirectories disk') :
    disk.Apart path paths := fun key hkey hreached =>
  h key (resolveText_keeps hk hkey) (hreached.keeps hk)

namespace ChangesOnly

theorem refl (paths : List String) (disk : Disk) : ChangesOnly paths disk disk where
  directories _ h := h
  guarded := rfl
  files _ _ _ _ := Iff.rfl

theorem mono (h : ChangesOnly paths disk disk') (hsub : paths ⊆ more) :
    ChangesOnly more disk disk' where
  directories := h.directories
  guarded := h.guarded
  files key hkey := h.files key fun hreached => hkey (hreached.mono hsub)

theorem trans (h : ChangesOnly paths disk disk') (h' : ChangesOnly paths disk' disk'') :
    ChangesOnly paths disk disk'' where
  directories key hkey := h'.directories key (h.directories key hkey)
  guarded := h'.guarded.trans h.guarded
  files key hkey node hnode := by
    have hbefore : ¬ disk'.Reached paths key := fun hreached =>
      hkey (hreached.keeps h'.directories)
    rw [h'.files key hkey node hnode, h.files key hbefore node hnode]

-- A text away from the paths is read as before.
theorem read_eq (h : ChangesOnly paths disk disk') {content : String}
    (hread : disk.read path = .ok content) (hapart : disk'.Apart path paths) :
    disk'.read path = .ok content := by
  obtain ⟨key, hkey, hnode, hwants⟩ := read_eq_ok_iff.mp hread
  have hkey' := resolveText_keeps h.directories hkey
  have hnode' := (h.files key (hapart key hkey') _ (by simp)).mpr hnode
  exact read_eq_ok_iff.mpr ⟨key, hkey', hnode', hwants⟩

-- What could be removed away from the paths still can be.
theorem remove_eq (h : ChangesOnly paths disk disk') {content : String}
    (hread : disk.read path = .ok content) (hapart : disk'.Apart path paths) :
    (disk'.remove path).1 = (disk.remove path).1 := by
  obtain ⟨key, hkey, -, hremove⟩ := remove_of_read hread
  obtain ⟨key', hkey', -, hremove'⟩ := remove_of_read (h.read_eq hread hapart)
  obtain rfl := Except.ok.inj ((resolveText_keeps h.directories hkey).symm.trans hkey')
  rw [hremove, hremove', isGuarded, isGuarded, h.guarded]
  split <;> rfl

-- A missing directory that is made changes no file.
theorem put_directory (paths : List String) (h : disk.node? key = none) :
    ChangesOnly paths disk (disk.put key .directory) where
  directories := keepsDirectories_put .directory (by simp [h])
  guarded := rfl
  files other _ node hnode := by
    by_cases hother : key = other
    · subst hother
      rw [node?_put_self (by simp [h]), h]
      simp [Ne.symm hnode]
    · rw [node?_put_of_ne .directory hother]

theorem put (node : Node) (h : disk.node? key ≠ some .directory)
    (hreached : disk.Reached paths key) : ChangesOnly paths disk (disk.put key node) where
  directories := keepsDirectories_put node h
  guarded := rfl
  files other hother found _ := by
    have hne : key ≠ other := by
      rintro rfl
      exact hother (hreached.keeps (keepsDirectories_put node h))
    rw [node?_put_of_ne node hne]

end ChangesOnly

theorem append_changes (disk : Disk) (path added : String) :
    ChangesOnly [path] disk (disk.append path added).2 := by
  unfold append
  split
  · exact .refl [path] disk
  · rename_i key hkey
    have hreached : disk.Reached [path] key :=
      ⟨path, List.mem_singleton_self path, (resolveFile_ok hkey).2.2⟩
    split
    · rename_i hnode
      split
      · exact .refl [path] disk
      · exact .put _ (by simp [hnode]) hreached
    · exact .refl [path] disk
    · rename_i content hnode
      exact .put _ (by simp [hnode]) hreached
    · rename_i content hnode
      exact .put _ (by simp [hnode]) hreached

theorem appendBelow_changes (disk : Disk) (path added : String) :
    ChangesOnly [path] disk (disk.appendBelow path added).2 := by
  unfold appendBelow
  split
  · exact disk.append_changes path added
  · rename_i parent _
    have hparents : ChangesOnly [path] disk (disk.makeDirectories parent).2 :=
      makeDirectoriesIn_steps (.refl [path]) (.trans) (.put_directory [path]) _ disk parent
    split
    · rename_i above hmade
      rwa [hmade] at hparents
    · rename_i above hmade
      rw [hmade] at hparents
      exact hparents.trans (above.append_changes path added)

theorem remove_changes (disk : Disk) (path : String) :
    ChangesOnly [path] disk (disk.remove path).2 := by
  unfold remove
  split
  · exact .refl [path] disk
  · rename_i key hkey
    split
    · exact .refl [path] disk
    rename_i found hnode
    split
    · exact .refl [path] disk
    split
    · exact .refl [path] disk
    · rename_i hfound
      have hplain : disk.node? key ≠ some .directory := by
        rw [hnode]
        simpa using hfound
      have hkeeps := keepsDirectories_erase hplain
      refine ⟨hkeeps, rfl, fun other hother node _ => ?_⟩
      have hne : key ≠ other := by
        rintro rfl
        exact hother ⟨path, List.mem_singleton_self path, resolveText_keeps hkeeps hkey⟩
      rw [node?_erase_of_ne hne]

theorem ChangesOnly.bytes?_eq (h : ChangesOnly paths disk disk')
    (hkey : ¬ disk'.Reached paths key) : disk'.bytes? key = disk.bytes? key := by
  have hfiles := h.files key hkey
  have hnone : ∀ node? : Option Node, node?.bind Node.bytes? ≠ none →
      ∃ node, node ≠ .directory ∧ node? = some node := by
    rintro (_ | node) hnode
    · exact absurd rfl hnode
    · refine ⟨node, ?_, rfl⟩
      rintro rfl
      exact hnode rfl
  unfold bytes?
  by_cases hbefore : (disk.node? key).bind Node.bytes? = none
  · by_cases hafter : (disk'.node? key).bind Node.bytes? = none
    · rw [hafter, hbefore]
    · obtain ⟨node, hplain, hnode⟩ := hnone _ hafter
      rw [hnode, (hfiles node hplain).mp hnode]
  · obtain ⟨node, hplain, hnode⟩ := hnone _ hbefore
    rw [hnode, (hfiles node hplain).mpr hnode]

theorem withParents_changes (disk : Disk) (path : String) :
    ChangesOnly [] disk (disk.withParents path) := by
  unfold withParents
  split
  · exact .refl [] disk
  · exact makeDirectoriesIn_steps (.refl []) (.trans) (.put_directory []) _ disk _

-- A write that fails changes no file.
theorem changes_of_failure {failure : FileError}
    (h : disk.appendBelow path added = (some failure, disk')) : ChangesOnly [] disk disk' :=
  withParents_of_failure h ▸ disk.withParents_changes path

-- A successful write adds to the bytes that lay where its path leads afterwards.
theorem bytes?_written (h : disk.appendBelow path added = (none, disk')) :
    ∃ key, disk'.resolveText path = .ok key ∧
      disk'.bytes? key = some ((disk.bytes? key).getD [] ++ added.toUTF8.toList) := by
  obtain ⟨key, -, hkey, hbytes⟩ := bytes?_appendBelow h
  have hparents := disk.withParents_changes path
  rw [hparents.bytes?_eq (by rintro ⟨_, hm, -⟩; cases hm)] at hbytes
  exact ⟨key, hkey, hbytes⟩

end

end DelayInjection.Disk
