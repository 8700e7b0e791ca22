import DelayInjection.Proofs.Disk.Appending

-- What becomes of the bytes of a file when text is appended to it. Files that hold no text are
-- appended to like all others.

namespace DelayInjection

-- The loop behind the list of a byte array, when some bytes are done and others are left.
private theorem toList_loop (done rest front : List UInt8) :
    ByteArray.toList.loop ⟨(done ++ rest).toArray⟩ done.length front = front.reverse ++ rest := by
  induction rest generalizing done front with
  | nil =>
      rw [ByteArray.toList.loop, if_neg (by simp [ByteArray.size]), List.append_nil]
  | cons byte rest ih =>
      have hbyte : ByteArray.get! ⟨(done ++ byte :: rest).toArray⟩ done.length = byte := by
        simp [ByteArray.get!]
      have hnext := ih (done ++ [byte]) (byte :: front)
      rw [List.append_assoc, List.singleton_append, List.length_append, List.length_singleton,
        List.reverse_cons, List.append_assoc, List.singleton_append] at hnext
      rw [ByteArray.toList.loop, if_pos (by simp [ByteArray.size]), hbyte, hnext]

theorem toList_bytes (bytes : ByteArray) : bytes.toList = bytes.data.toList :=
  toList_loop [] bytes.data.toList []

theorem toUTF8_append (a b : String) :
    (a ++ b).toUTF8.toList = a.toUTF8.toList ++ b.toUTF8.toList := by
  simp [toList_bytes]

def Node.bytes? : Node → Option (List UInt8)
  | .text content => some content.toUTF8.toList
  | .binary content => some content
  | .directory => none

namespace Disk

variable {disk disk' : Disk} {path added : String}

-- The bytes that lie at a key.
def bytes? (disk : Disk) (key : FileKey) : Option (List UInt8) :=
  (disk.node? key).bind Node.bytes?

theorem bytes?_put_self {key : FileKey} {node : Node} (h : disk.node? key ≠ some .directory) :
    (disk.put key node).bytes? key = node.bytes? := by
  rw [bytes?, node?_put_self h, Option.bind_some]

-- The bytes of the file to which a path leads, once the missing directories on the way are made.
def bytesAt? (disk : Disk) (path : String) : Option (List UInt8) :=
  match (disk.withParents path).resolveText path with
  | .error _ => none
  | .ok key => (disk.withParents path).bytes? key

theorem bytesAt?_of_node {key : FileKey} {node : Node} (hkey : disk.resolveText path = .ok key)
    (hnode : disk.node? key = some node) : disk.bytesAt? path = node.bytes? := by
  have hgrown := disk.extends_withParents path
  rw [bytesAt?, resolveText_keeps hgrown.keepsDirectories hkey]
  dsimp only
  rw [bytes?, hgrown key node hnode, Option.bind_some]

-- A successful write adds to the end of the bytes that lay where its path leads.
theorem bytes?_appendBelow (h : disk.appendBelow path added = (none, disk')) :
    ∃ key, (disk.withParents path).resolveText path = .ok key ∧
      disk'.resolveText path = .ok key ∧
      disk'.bytes? key =
        some (((disk.withParents path).bytes? key).getD [] ++ added.toUTF8.toList) := by
  have hwritten := append_of_appendBelow h
  generalize disk.withParents path = below at hwritten ⊢
  unfold append at hwritten
  split at hwritten
  · cases hwritten
  · rename_i key hkey
    have hresolve := (resolveFile_ok hkey).2.2
    have hput : ∀ node, below.node? key ≠ some .directory →
        (below.put key node).resolveText path = .ok key := fun node hnode =>
      resolveText_keeps (keepsDirectories_put node hnode) hresolve
    split at hwritten
    · rename_i hnode
      split at hwritten
      · cases (Prod.mk.inj hwritten).1
      obtain ⟨-, rfl⟩ := Prod.mk.inj hwritten
      refine ⟨key, hresolve, hput _ (by simp [hnode]), ?_⟩
      rw [bytes?_put_self (by simp [hnode]), bytes?, hnode]
      rfl
    · cases hwritten
    · rename_i content hnode
      obtain ⟨-, rfl⟩ := Prod.mk.inj hwritten
      refine ⟨key, hresolve, hput _ (by simp [hnode]), ?_⟩
      rw [bytes?_put_self (by simp [hnode]), bytes?, hnode, Node.bytes?, toUTF8_append]
      rfl
    · rename_i content hnode
      obtain ⟨-, rfl⟩ := Prod.mk.inj hwritten
      refine ⟨key, hresolve, hput _ (by simp [hnode]), ?_⟩
      rw [bytes?_put_self (by simp [hnode]), bytes?, hnode]
      rfl

theorem bytesAt?_appendBelow (h : disk.appendBelow path added = (none, disk')) :
    disk'.bytesAt? path = some ((disk.bytesAt? path).getD [] ++ added.toUTF8.toList) := by
  obtain ⟨key, hkey, hkey', hbytes⟩ := bytes?_appendBelow h
  obtain ⟨node, hnode, hfound⟩ := Option.bind_eq_some_iff.mp hbytes
  rw [bytesAt?_of_node hkey' hnode, hfound, bytesAt?, hkey]

end Disk

end DelayInjection
