import Mathlib.Data.List.Basic
import DelayInjection.Disk.Basic
import DelayInjection.Proofs.Text.Cuts

-- What a file holds after text was appended to it. Making the directories on the way to a file
-- adds to the disk and takes nothing away, so that all that was found before is found again.

namespace DelayInjection.Disk

private theorem bind_ok {ε α β : Type} {attempt : Except ε α} {next : α → Except ε β} {result : β}
    (h : (attempt >>= next) = .ok result) : ∃ a, attempt = .ok a ∧ next a = .ok result := by
  cases attempt with
  | error e => cases h
  | ok a => exact ⟨a, rfl, h⟩

section

variable {disk disk' disk'' : Disk}

-- All directories are still there.
def KeepsDirectories (disk disk' : Disk) : Prop :=
  ∀ key, disk.node? key = some .directory → disk'.node? key = some .directory

-- Everything is still there.
def Extends (disk disk' : Disk) : Prop :=
  ∀ key node, disk.node? key = some node → disk'.node? key = some node

theorem Extends.refl (disk : Disk) : disk.Extends disk := fun _ _ h => h

theorem Extends.trans (h : disk.Extends disk') (h' : disk'.Extends disk'') :
    disk.Extends disk'' := fun key node hnode => h' key node (h key node hnode)

theorem Extends.keepsDirectories (h : disk.Extends disk') : disk.KeepsDirectories disk' :=
  fun key hnode => h key .directory hnode

theorem node?_put_of_ne {key other : FileKey} (node : Node) (h : key ≠ other) :
    (disk.put key node).node? other = disk.node? other := by
  simp only [node?, put, Table.get?_insert_of_ne _ _ h]

-- What lies at or above the start stays a directory, whatever is put there.
theorem node?_put_self {key : FileKey} {node : Node} (h : disk.node? key ≠ some .directory) :
    (disk.put key node).node? key = some node := by
  unfold node? at h ⊢
  split
  · rename_i habove
    rw [if_pos habove] at h
    exact absurd rfl h
  · simp [put]

theorem keepsDirectories_put {key : FileKey} (node : Node)
    (h : disk.node? key ≠ some .directory) : disk.KeepsDirectories (disk.put key node) := by
  intro other hother
  have hne : key ≠ other := by
    rintro rfl
    exact h hother
  rw [node?_put_of_ne node hne, hother]

theorem extends_put {key : FileKey} (node : Node) (h : disk.node? key = none) :
    disk.Extends (disk.put key node) := by
  intro other found hfound
  have hne : key ≠ other := by
    rintro rfl
    rw [h] at hfound
    cases hfound
  rw [node?_put_of_ne node hne, hfound]

theorem directory_of_descend {key next : FileKey} {name : List Char}
    (h : disk.descend key name = .ok next) : disk.node? key = some .directory := by
  unfold descend at h
  split at h
  · cases h
  · rename_i hnode
    exact hnode
  · cases h

theorem descend_congr {key : FileKey} (h : disk.node? key = some .directory)
    (h' : disk'.node? key = some .directory) (name : List Char) :
    disk'.descend key name = disk.descend key name := by
  simp only [descend, h, h']

-- Where steps lead does not change while directories stay.
theorem foldlM_descend_keeps (hk : disk.KeepsDirectories disk') {steps : List (List Char)}
    {key last : FileKey} (h : steps.foldlM disk.descend key = .ok last) :
    steps.foldlM disk'.descend key = .ok last := by
  induction steps generalizing key with
  | nil => exact h
  | cons name rest ih =>
      rw [List.foldlM_cons] at h ⊢
      obtain ⟨next, hnext, hrest⟩ := bind_ok h
      have hnode := directory_of_descend hnext
      rw [descend_congr hnode (hk key hnode), hnext]
      exact ih hrest

theorem resolveText_keeps (hk : disk.KeepsDirectories disk') {path : String} {key : FileKey}
    (h : disk.resolveText path = .ok key) : disk'.resolveText path = .ok key := by
  obtain ⟨_, hcheck, hwalk⟩ := bind_ok h
  rw [resolveText, resolve, hcheck]
  exact foldlM_descend_keeps hk hwalk

end

section

variable {disk : Disk} {path : String}

theorem read_eq_ok_iff {content : String} :
    disk.read path = .ok content ↔ ∃ key, disk.resolveText path = .ok key ∧
      disk.node? key = some (.text content) ∧ Path.wantsDirectory path.toList = false := by
  constructor
  · intro h
    obtain ⟨key, hkey, hread⟩ := bind_ok h
    split at hread
    · cases hread
    · cases hread
    · rename_i node hnode
      split at hread
      · cases hread
      · rename_i hwants
        split at hread
        · obtain rfl := Except.ok.inj hread
          exact ⟨key, hkey, hnode, by simpa using hwants⟩
        · cases hread
  · rintro ⟨key, hkey, hnode, hwants⟩
    simp [read, hkey, hnode, hwants, bind, Except.bind]

theorem read_extends {disk' : Disk} (h : disk.Extends disk') {content : String}
    (hread : disk.read path = .ok content) : disk'.read path = .ok content := by
  obtain ⟨key, hkey, hnode, hwants⟩ := read_eq_ok_iff.mp hread
  exact read_eq_ok_iff.mpr
    ⟨key, resolveText_keeps h.keepsDirectories hkey, h key _ hnode, hwants⟩

-- A path that leads to a file to write leads there for reading too.
theorem resolveFile_ok {key : FileKey} (h : disk.resolveFile path = .ok key) :
    path.toList ≠ [] ∧ path.toList.getLast? ≠ some '/' ∧ disk.resolveText path = .ok key := by
  obtain ⟨_, hcheck, hwalk⟩ := bind_ok h
  have hne : path.toList ≠ [] := by
    intro hempty
    rw [hempty] at hcheck
    cases hcheck
  split at hwalk
  · obtain ⟨_, _, herror⟩ := bind_ok hwalk
    cases herror
  · rename_i hslash
    refine ⟨hne, hslash, ?_⟩
    rw [resolveText, resolve, hcheck]
    exact hwalk

-- What is no directory is not reached by a path that insists on one.
theorem wantsDirectory_eq_false {key : FileKey} (hkey : disk.resolveFile path = .ok key)
    (hnode : disk.node? key ≠ some .directory) : Path.wantsDirectory path.toList = false := by
  obtain ⟨hne, hslash, hresolve⟩ := resolveFile_ok hkey
  obtain ⟨_, -, hwalk⟩ := bind_ok hresolve
  have hpieces := Text.splitAll_ne_nil '/' path.toList
  have hjoin := Text.joinWith_splitAll '/' path.toList
  obtain ⟨front, last, hsplit⟩ := (List.eq_nil_or_concat _).resolve_left hpieces
  rw [List.concat_eq_append] at hsplit
  rw [hsplit] at hjoin
  have hlast : last ≠ [] := by
    rintro rfl
    -- the path would be empty or end in a slash
    by_cases hfront : front = []
    · subst hfront
      exact hne hjoin.symm
    · rw [Text.joinWith_concat _ _ hfront] at hjoin
      exact hslash (by rw [← hjoin]; simp)
  have hdot : last ≠ ['.'] := by
    rintro rfl
    -- the last step would stay where it is, in a directory
    rw [walk, Path.steps, hsplit, List.filter_append, List.foldlM_append] at hwalk
    obtain ⟨before, -, hstep⟩ := bind_ok hwalk
    obtain ⟨after, hdescend, hend⟩ :=
      bind_ok (show (disk.descend before ['.'] >>= _) = _ from hstep)
    have hbefore := directory_of_descend hdescend
    simp only [descend, hbefore, if_true] at hdescend
    obtain rfl := Except.ok.inj hdescend
    obtain rfl := Except.ok.inj hend
    exact hnode hbefore
  simp [Path.wantsDirectory, hsplit, Path.isIdle, hlast, hdot]

end

section

variable {disk disk' : Disk} {path added : String}

theorem settle_snd (path : List Char) (attempt : Attempt) :
    (settle path attempt).2 = attempt.2 := by
  unfold settle
  split <;> rfl

-- How a disk may change in steps, if making a missing directory is such a step.
section

variable {R : Disk → Disk → Prop} (hrefl : ∀ disk, R disk disk)
  (htrans : ∀ {disk disk' disk''}, R disk disk' → R disk' disk'' → R disk disk'')
  (hput : ∀ {disk key}, disk.node? key = none → R disk (disk.put key .directory))

include hrefl hput

theorem makeDirectory_steps (disk : Disk) (path : List Char) :
    R disk (disk.makeDirectory path).2 := by
  unfold makeDirectory
  split
  · exact hrefl disk
  · split
    · exact hrefl disk
    · rename_i hnode
      split
      · exact hrefl disk
      · exact hput hnode

include htrans

theorem makeDirectoriesIn_steps (fuel : Nat) (disk : Disk) (path : List Char) :
    R disk (makeDirectoriesIn fuel disk path).2 := by
  induction fuel generalizing disk path with
  | zero => exact hrefl disk
  | succ fuel ih =>
      have hmake := makeDirectory_steps hrefl hput disk path
      unfold makeDirectoriesIn
      split
      · exact hrefl disk
      · split
        · rename_i made hattempt
          rw [hattempt] at hmake
          split
          · exact hmake
          · rename_i parent _
            have hparents := ih made parent
            split
            · rename_i above habove
              rw [habove] at hparents
              exact htrans hmake hparents
            · rename_i above habove
              rw [habove] at hparents
              rw [settle_snd]
              exact htrans (htrans hmake hparents) (makeDirectory_steps hrefl hput above path)
        · rw [settle_snd]
          exact hmake

end

theorem makeDirectoriesIn_extends (fuel : Nat) (disk : Disk) (path : List Char) :
    disk.Extends (makeDirectoriesIn fuel disk path).2 :=
  makeDirectoriesIn_steps Extends.refl Extends.trans (extends_put .directory) fuel disk path

-- The disk with the directories above a file.
def withParents (disk : Disk) (path : String) : Disk :=
  match Path.parent? path.toList with
  | none => disk
  | some parent => (disk.makeDirectories parent).2

theorem extends_withParents (disk : Disk) (path : String) :
    disk.Extends (disk.withParents path) := by
  unfold withParents
  split
  · exact .refl disk
  · exact makeDirectoriesIn_extends _ disk _

theorem append_of_appendBelow (h : disk.appendBelow path added = (none, disk')) :
    (disk.withParents path).append path added = (none, disk') := by
  unfold appendBelow at h
  unfold withParents
  cases hparent : Path.parent? path.toList with
  | none =>
      rw [hparent] at h
      exact h
  | some parent =>
      rw [hparent] at h
      dsimp only at h ⊢
      generalize disk.makeDirectories parent = made at h ⊢
      obtain ⟨_ | e, made⟩ := made
      · exact h
      · cases h

-- A write that fails leaves at most directories behind.
theorem withParents_of_failure {failure : FileError}
    (h : disk.appendBelow path added = (some failure, disk')) :
    disk' = disk.withParents path := by
  have happend : ∀ {start : Disk}, start.append path added = (some failure, disk') →
      disk' = start := by
    intro start hwritten
    unfold append at hwritten
    split at hwritten
    · exact (Prod.mk.inj hwritten).2.symm
    · split at hwritten
      · split at hwritten
        · exact (Prod.mk.inj hwritten).2.symm
        · cases (Prod.mk.inj hwritten).1
      · exact (Prod.mk.inj hwritten).2.symm
      · cases (Prod.mk.inj hwritten).1
      · cases (Prod.mk.inj hwritten).1
  unfold appendBelow at h
  unfold withParents
  cases hparent : Path.parent? path.toList with
  | none =>
      rw [hparent] at h
      exact happend h
  | some parent =>
      rw [hparent] at h
      dsimp only at h ⊢
      generalize disk.makeDirectories parent = made at h ⊢
      obtain ⟨_ | e, made⟩ := made
      · exact happend h
      · exact (Prod.mk.inj h).2.symm

theorem extends_of_failure {failure : FileError}
    (h : disk.appendBelow path added = (some failure, disk')) : disk.Extends disk' :=
  withParents_of_failure h ▸ disk.extends_withParents path

-- What lies where a path leads: nothing, or a text. There is nothing only if nothing comes to
-- light once the missing directories on the way are made, since steps up from these may lead back
-- to what is there already.
def Holds (disk : Disk) (path : String) : Option String → Prop
  | none => (disk.withParents path).hasPath path = false
  | some content => disk.read path = .ok content

-- Two disks that do not differ in what lies at a path.
def SameFile (disk disk' : Disk) (path : String) : Prop :=
  ∀ content?, disk.Holds path content? ↔ disk'.Holds path content?

theorem hasPath_eq_false_iff :
    disk.hasPath path = false ↔
      ∀ key, disk.resolveText path = .ok key → disk.node? key = none := by
  unfold hasPath
  split
  · rename_i herror
    simp [herror]
  · rename_i key hkey
    simp [hkey]

theorem hasPath_of_holds_none (h : disk.Holds path none) : disk.hasPath path = false := by
  have hgrown := disk.extends_withParents path
  rw [hasPath_eq_false_iff]
  intro key hkey
  cases hnode : disk.node? key with
  | none => rfl
  | some node =>
      have hlater := hasPath_eq_false_iff.mp h key (resolveText_keeps hgrown.keepsDirectories hkey)
      rw [hgrown key node hnode] at hlater
      cases hlater

theorem read_put {key : FileKey} (hkey : disk.resolveFile path = .ok key)
    (hnode : disk.node? key ≠ some .directory) (content : String) :
    (disk.put key (.text content)).read path = .ok content :=
  read_eq_ok_iff.mpr ⟨key,
    resolveText_keeps (keepsDirectories_put _ hnode) (resolveFile_ok hkey).2.2,
    node?_put_self hnode, wantsDirectory_eq_false hkey hnode⟩

-- A successful write adds to the end of what was there.
theorem Holds.appendBelow {content? : Option String} (h : disk.Holds path content?)
    (happend : disk.appendBelow path added = (none, disk')) :
    disk'.Holds path (some (content?.getD "" ++ added)) := by
  have hgrown := disk.extends_withParents path
  have hwritten := append_of_appendBelow happend
  unfold append at hwritten
  split at hwritten
  · cases hwritten
  · rename_i key hkey
    have hresolve := (resolveFile_ok hkey).2.2
    cases content? with
    | none =>
        have hnone := hasPath_eq_false_iff.mp h key hresolve
        rw [hnone] at hwritten
        dsimp only at hwritten
        split at hwritten
        · cases (Prod.mk.inj hwritten).1
        obtain ⟨-, rfl⟩ := Prod.mk.inj hwritten
        rw [Option.getD_none, String.empty_append]
        exact read_put hkey (by simp [hnone]) added
    | some content =>
        obtain ⟨found, hfound, hnode, -⟩ := read_eq_ok_iff.mp (read_extends hgrown h)
        obtain rfl := Except.ok.inj (hresolve.symm.trans hfound)
        rw [hnode] at hwritten
        obtain ⟨-, rfl⟩ := Prod.mk.inj hwritten
        exact read_put hkey (by simp [hnode]) _

theorem read_ne_of_missing (h : disk.hasPath path = false) (content : String) :
    disk.read path ≠ .ok content := by
  intro hread
  obtain ⟨key, hkey, hnode, -⟩ := read_eq_ok_iff.mp hread
  have hnone := hasPath_eq_false_iff.mp h key hkey
  rw [hnode] at hnone
  cases hnone

theorem Holds.read_iff {content? : Option String} (h : disk.Holds path content?)
    (content : String) : disk.read path = .ok content ↔ content? = some content := by
  cases content? with
  | none => exact iff_of_false (read_ne_of_missing (hasPath_of_holds_none h) content) nofun
  | some found =>
      rw [show disk.read path = .ok found from h]
      simp

theorem node?_erase_of_ne {key other : FileKey} (h : key ≠ other) :
    ({ disk with nodes := disk.nodes.erase key } : Disk).node? other = disk.node? other := by
  simp only [node?, Table.get?_erase, if_neg h]

theorem keepsDirectories_erase {key : FileKey} (h : disk.node? key ≠ some .directory) :
    disk.KeepsDirectories { disk with nodes := disk.nodes.erase key } := by
  intro other hother
  have hne : key ≠ other := by
    rintro rfl
    exact h hother
  rw [node?_erase_of_ne hne, hother]

-- What lies where a path leads cannot be removed if its directory is guarded.
theorem remove_of_read {content : String} (h : disk.read path = .ok content) :
    ∃ key, disk.resolveText path = .ok key ∧ disk.node? key = some (.text content) ∧
      disk.remove path =
        if disk.isGuarded key then (some .denied, disk)
        else (none, { disk with nodes := disk.nodes.erase key }) := by
  obtain ⟨key, hkey, hnode, -⟩ := read_eq_ok_iff.mp h
  exact ⟨key, hkey, hnode, by simp [remove, hkey, hnode]⟩

theorem remove_failed {content : String} (h : disk.read path = .ok content)
    (hfailed : (disk.remove path).1 ≠ none) : (disk.remove path).2 = disk := by
  obtain ⟨key, -, -, hremove⟩ := remove_of_read h
  rw [hremove] at hfailed ⊢
  split
  · rfl
  · rename_i hfree
    exact absurd (by rw [if_neg hfree]) hfailed

-- A text that is removed is gone.
theorem hasPath_remove {content : String} (h : disk.read path = .ok content)
    (hremoved : (disk.remove path).1 = none) : (disk.remove path).2.hasPath path = false := by
  obtain ⟨key, hkey, hnode, hremove⟩ := remove_of_read h
  split at hremove
  · rw [hremove] at hremoved
    cases hremoved
  rw [hremove]
  have hplain : ¬ (key.isAbove = true ∨ key = ["/"]) := by
    intro habove
    rw [node?, if_pos habove] at hnode
    cases hnode
  have hkeeps : disk.KeepsDirectories { disk with nodes := disk.nodes.erase key } :=
    keepsDirectories_erase (by simp [hnode])
  rw [hasPath_eq_false_iff]
  intro found hfound
  obtain rfl := Except.ok.inj ((resolveText_keeps hkeeps hkey).symm.trans hfound)
  rw [node?, if_neg hplain, Table.get?_erase, if_pos rfl]

end

end DelayInjection.Disk
