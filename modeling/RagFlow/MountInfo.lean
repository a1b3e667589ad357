import Mathlib.Data.List.Dedup
import Mathlib.Data.List.Sort
import RagFlow.PosixPath

/-! # The directories a scan may read

`scan_directory` accepts a path only if it starts with one of the mounted volumes that
`get_mounted_volumes` reads from `/proc/self/mountinfo`.  A line of that file has the mount
point as its fifth field; after the separator `" - "` come the type of the file system and the
mount source:

    36 35 98:0 / /mnt rw,noatime - ext3 /dev/root rw

The code takes the second field after the separator where the type is the first, and compares
mount point and path as strings, without regard to the components.  `pathAllowed_confined_iff`
states for which mount tables and paths the test nevertheless admits only paths below a mounted
volume of an admissible type. -/

namespace RagFlow.MountInfo

open Py

/-- `system_fs`. -/
def systemFs : List Str :=
  (["proc", "sysfs", "devtmpfs", "devpts", "tmpfs", "squashfs", "cgroup2", "securityfs",
    "pstore", "efivarfs", "bpf", "autofs", "mqueue", "hugetlbfs", "debugfs", "tracefs", "fusectl",
    "configfs", "overlay", "aufs", "unionfs", "zfs", "btrfs", "ext4", "f2fs"] :
    List String).map String.toList

/-- `skip_prefixes`. -/
def skipPrefixes : List Str :=
  (["/snap/", "/run/snapd", "/run/user", "/run/docker", "/sys/fs", "/boot/efi", "/proc",
    "/dev"] : List String).map String.toList

/-- The fields of a line before and after the first separator. -/
def lineFields (line : Str) : Option (List Str × List Str) :=
  match splitSep " - " line with
  | mountPart :: fsPart :: _ => some (splitWs mountPart, splitWs fsPart)
  | _ => none

/-- The mount point of a line: the fifth field before the separator. -/
def mountPoint (line : Str) : Option Str := (lineFields line).bind (fun l => l.1[4]?)

/-- The type of the file system: the first field after the separator. -/
def fsType (line : Str) : Option Str := (lineFields line).bind (fun l => l.2[0]?)

/-- The mount source: the second field after the separator. -/
def mountSource (line : Str) : Option Str := (lineFields line).bind (fun l => l.2[1]?)

/-- The mount point is absolute, is not the root and starts with no prefix to skip. -/
def isVolumePath (mp : Str) : Bool :=
  startswith mp "/" && mp ≠ "/" && !skipPrefixes.any (startswith mp)

/-- The test of `get_mounted_volumes` on one line: the mount point it adds. -/
def mountedVolume (ct : CaseTable) (line : Str) : Option Str :=
  match mountPoint line, mountSource line with
  | some mp, some fs =>
      if isVolumePath mp && !systemFs.contains (ct.lower fs) then some mp else none
  | _, _ => none

/-- `get_mounted_volumes`. -/
def getMountedVolumes (ct : CaseTable) (content : Str) : List Str :=
  ((fileLines content).filterMap (mountedVolume ct)).dedup

/-- `sorted(get_mounted_volumes(), key=len, reverse=True)`. -/
def allowedPaths (ct : CaseTable) (content : Str) : List Str :=
  (getMountedVolumes ct content).insertionSort (fun a b => b.length ≤ a.length)

/-- The test of the path against the mounted volumes. -/
def pathAllowed (ct : CaseTable) (content path : Str) : Bool :=
  (allowedPaths ct content).any (startswith path)

/-- The line mounts a volume of an admissible type at a directory that is, or is an ancestor
of, the path. -/
def covers (line path : Str) : Bool :=
  match mountPoint line, fsType line with
  | some mp, some fs =>
      isVolumePath mp && !systemFs.contains fs && (components mp).isPrefixOf (components path)
  | _, _ => false

/-- The path lies on a mounted volume of an admissible type. -/
def Confined (content path : Str) : Prop := ∃ line ∈ fileLines content, covers line path = true

/-- The line admits the path although its file system has a type of `system_fs`, or although the
path is not below its mount point. -/
def slips (ct : CaseTable) (line path : Str) : Bool :=
  match mountedVolume ct line, fsType line with
  | some mp, some fs => startswith path mp &&
      (systemFs.contains fs || !(components mp).isPrefixOf (components path))
  | _, _ => false

theorem pathAllowed_iff {ct : CaseTable} {content path : Str} :
    pathAllowed ct content path = true ↔
      ∃ line ∈ fileLines content, ∃ mp, mountedVolume ct line = some mp ∧
        startswith path mp = true := by
  unfold pathAllowed allowedPaths getMountedVolumes
  rw [List.any_eq_true]
  constructor
  · rintro ⟨mp, hmp, hpre⟩
    rw [List.mem_insertionSort, List.mem_dedup, List.mem_filterMap] at hmp
    obtain ⟨line, hline, hv⟩ := hmp
    exact ⟨line, hline, mp, hv, hpre⟩
  · rintro ⟨line, hline, mp, hv, hpre⟩
    refine ⟨mp, ?_, hpre⟩
    rw [List.mem_insertionSort, List.mem_dedup, List.mem_filterMap]
    exact ⟨line, hline, hv⟩

theorem mountedVolume_eq_some {ct : CaseTable} {line mp : Str}
    (h : mountedVolume ct line = some mp) :
    mountPoint line = some mp ∧ isVolumePath mp = true ∧ ∃ fs, fsType line = some fs := by
  unfold mountedVolume at h
  split at h
  · rename_i mp' fs hmp hfs
    split_ifs at h with hc
    cases h
    refine ⟨hmp, (Bool.and_eq_true _ _ ▸ hc).1, ?_⟩
    unfold mountSource at hfs
    unfold fsType
    cases hl : lineFields line with
    | none => rw [hl] at hfs; cases hfs
    | some l =>
        rw [hl] at hfs
        obtain ⟨hlt, _⟩ := List.getElem?_eq_some_iff.mp (show l.2[1]? = some fs from hfs)
        exact ⟨l.2[0], List.getElem?_eq_getElem (by omega)⟩
  · cases h

/-- A line that admits the path covers it or slips. -/
theorem covers_or_slips {ct : CaseTable} {line mp path : Str}
    (hv : mountedVolume ct line = some mp) (hpre : startswith path mp = true) :
    covers line path = true ∨ slips ct line path = true := by
  obtain ⟨hmp, hvol, fs, hfs⟩ := mountedVolume_eq_some hv
  unfold covers slips
  simp only [hmp, hfs, hv, hvol, hpre, Bool.true_and]
  cases systemFs.contains fs <;> cases (components mp).isPrefixOf (components path) <;> simp

/-- **Confinement.**  The test admits the path only below a mounted volume of an admissible type
if and only if some line covers the path whenever some line slips on it. -/
theorem pathAllowed_confined_iff (ct : CaseTable) (content path : Str) :
    (pathAllowed ct content path = true → Confined content path) ↔
      ((∃ line ∈ fileLines content, slips ct line path = true) → Confined content path) := by
  constructor
  · rintro h ⟨line, hline, hs⟩
    apply h
    rw [pathAllowed_iff]
    unfold slips at hs
    cases hv : mountedVolume ct line with
    | none => rw [hv] at hs; cases hs
    | some mp =>
        obtain ⟨_, _, fs, hfs⟩ := mountedVolume_eq_some hv
        simp only [hv, hfs, Bool.and_eq_true] at hs
        exact ⟨line, hline, mp, hv, hs.1⟩
  · intro h ha
    obtain ⟨line, hline, mp, hv, hpre⟩ := pathAllowed_iff.mp ha
    rcases covers_or_slips hv hpre with hc | hs
    · exact ⟨line, hline, hc⟩
    · exact h ⟨line, hline, hs⟩

/-- A volume of type `ext4` is admitted, its mount source being compared with `system_fs`. -/
theorem pathAllowed_not_confined : ¬ ∀ (ct : CaseTable) (content path : Str),
    pathAllowed ct content path = true → Confined content path := by
  intro h
  have := h .ascii "36 35 8:1 / /data rw,relatime - ext4 /dev/sda1 rw\n" "/data2/secret"
    (by decide)
  exact absurd this (by unfold Confined; decide)

end RagFlow.MountInfo
