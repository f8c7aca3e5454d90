import Phrasebook.Proofs.Assoc
import Phrasebook.Proofs.Message.Bookkeeping
import Phrasebook.Proofs.Text.Utf8
import Phrasebook.Session.Run

/-!
# Files that a run writes and reads

A file that has been written holds what was written, since writing it changes no directory.

## Main results

* `Session.run_writeBelow` — what writing a text does.
* `Session.run_loadJson` — a text without surrogates is read again as it was, if it has no carriage returns:
  these would be taken for line ends.
-/

namespace Phrasebook

variable {bytes : List UInt8} {place : DiskPlace}

/-! ## Disks -/

namespace Disk

variable {d d' : Disk} {p : Path}

/-- Where names lead depends on the directories only. -/
lemma follow_of_directories (h : d'.directories = d.directories) {here : DiskPlace}
    {names : List Text} (hfollow : d.follow here names = .ok place) :
    d'.follow here names = .ok place := by
  induction names generalizing here with
  | nil => exact hfollow
  | cons name rest ih =>
    have hdirectory : d'.isDirectory here = d.isDirectory here := by
      rw [isDirectory, isDirectory, h]
    rw [follow] at hfollow ⊢
    rw [hdirectory]
    split_ifs at hfollow ⊢
    · exact ih hfollow
    · exact ih hfollow

/-- A disk on which a file can be written, once the directories above it are made. -/
def Takes (d : Disk) (p : Path) : Prop :=
  ∃ made place, d.makeDirectories p.parent = .ok made ∧ made.place p = .ok place ∧
    made.isDirectory place = false

/-- **A file is written where its path leads**, unless a directory is there, and holds what was
written. -/
theorem write_eq_ok (hplace : d.place p = .ok place)
    (hdirectory : d.isDirectory place = false) (bytes : List UInt8) :
    ∃ d', d.write p bytes = .ok d' ∧ d'.read p = .ok bytes := by
  let d' : Disk := { d with files := put d.files place bytes }
  have hwrite : d.write p bytes = .ok d' := by
    rw [write, hplace]
    show (if d.isDirectory place then _ else _) = _
    rw [hdirectory]
    rfl
  have hplace' : d'.place p = .ok place := by
    have hfollow : d.follow (if p.anchor.isEmpty then d.current else []) p.names = .ok place :=
      eq_ok_of_mapError hplace
    have hsame : d'.directories = d.directories := rfl
    rw [Disk.place]
    show (d'.follow (if p.anchor.isEmpty then d.current else []) p.names).mapError _ = _
    rw [follow_of_directories hsame hfollow]
    rfl
  have hlookup : d'.files.lookup place = some bytes := by
    show (put d.files place bytes).lookup place = _
    rw [lookup_put, if_pos (beq_self_eq_true place)]
  refine ⟨d', hwrite, ?_⟩
  simp only [read, hplace', bind, Except.bind, hlookup]

end Disk

/-! ## Texts without carriage returns -/

/-- A text without carriage returns keeps its line ends. -/
lemma Text.unifyLineEnds_of_notMem {t : Text} (h : .scalar '\r' ∉ t) : t.unifyLineEnds = t := by
  induction t with
  | nil => rfl
  | cons c rest ih =>
    obtain ⟨hc, hrest⟩ := List.ne_and_not_mem_of_not_mem_cons h
    rw [unifyLineEnds.eq_4 c rest (fun _ hc' _ => hc hc'.symm) (fun hc' => hc hc'.symm), ih hrest]

/-! ## Steps of a run -/

namespace Session

variable {desk : Desk} {p : Path} {t : Text}

/-- **A text is written on a disk that takes it**, and the file then holds its bytes. -/
theorem run_writeBelow (htakes : desk.disk.Takes p) (ht : t.encode = .ok bytes) :
    ∃ disk, (writeBelow p t).run.run desk = (.ok (), { desk with disk := disk }) ∧
      disk.read p = .ok bytes := by
  obtain ⟨made, place, hmade, hplace, hdirectory⟩ := htakes
  obtain ⟨disk, hwrite, hread⟩ := Disk.write_eq_ok hplace hdirectory bytes
  refine ⟨disk, ?_, hread⟩
  have hfile : (writeFile p t).run.run { desk with disk := made } = (.ok (), { desk with disk := disk }) := by
    rw [writeFile, ht]
    show (orRefuse (made.write p bytes) >>= _).run.run _ = _
    rw [hwrite]
    rfl
  rw [writeBelow]
  show (orRefuse (desk.disk.makeDirectories p.parent) >>= _).run.run desk = _
  rw [hmade]
  exact hfile

/-- **The value in a file** whose bytes are those of a text without carriage returns. -/
theorem run_loadJson (hread : desk.disk.read p = .ok bytes)
    (hdecode : Utf8.decode bytes = .ok t) (hreturn : .scalar '\r' ∉ t) {value : Json}
    (hvalue : Json.parse t = .ok value) (what : Text) :
    (loadJson what p).run.run desk = (.ok value, desk) := by
  have htext : (decode bytes).run.run desk = (.ok t, desk) := by
    rw [decode, hdecode]
    simp only [Text.unifyLineEnds_of_notMem hreturn]
    rfl
  rw [loadJson, run_get_bind, hread]
  simp only [run_bind, htext, hvalue]
  rfl

end Session

end Phrasebook
