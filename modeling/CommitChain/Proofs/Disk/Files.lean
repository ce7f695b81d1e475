import CommitChain.Disk.Files
import CommitChain.Proofs.Action
import CommitChain.Proofs.Disk
import CommitChain.Proofs.Json.CanonicalForm
import CommitChain.Proofs.Text.Lines

/-!
# JSON files

The file of a tree holds one line, which is read as the canonical form of the tree.  The name of a
file without `.json` gives back what the file was named for.
-/

namespace CommitChain

/-! ## Names -/

namespace Path

theorem isJsonName_append (name : String) : isJsonName (name ++ ".json") = true := by
  have hlength : (name ++ ".json").length - 5 = name.toList.length := by
    rw [← String.length_toList, String.toList_append, List.length_append]
    exact Nat.add_sub_cancel _ 5
  rw [isJsonName, hlength, String.toList_append, List.drop_left, decide_eq_true_eq]

theorem exists_of_isJsonName {name : String} (h : isJsonName name = true) :
    ∃ base, name = base ++ ".json" := by
  rw [isJsonName, decide_eq_true_eq] at h
  refine ⟨String.ofList (name.toList.take (name.length - 5)), ?_⟩
  rw [← String.toList_inj, String.toList_append, String.toList_ofList, ← h, List.take_append_drop]

theorem stem_append {name : String} (h : name ≠ "") : stem (name ++ ".json") = name := by
  have hne : name.toList ≠ [] := fun he => h (String.toList_inj.1 he)
  have hreverse :
      ((name ++ ".json").toList.reverse.takeWhile (· ≠ '.')) = ['n', 'o', 's', 'j'] := by
    rw [String.toList_append, List.reverse_append]
    rfl
  have hlength : (name ++ ".json").toList.length = name.toList.length + 5 := by
    rw [String.toList_append, List.length_append]
    rfl
  have hpos := List.length_pos_of_ne_nil hne
  rw [stem, hreverse, hlength, if_pos ⟨by decide, by simp; omega⟩, String.toList_append,
    List.take_left' (by simp), String.ofList_toList]

/-- A name with an ending is what stands before the ending and the ending. -/
theorem eq_stem_append {name : String} (hj : isJsonName name = true) (hs : stem name ≠ ".json") :
    name = stem name ++ ".json" := by
  obtain ⟨base, rfl⟩ := exists_of_isJsonName hj
  by_cases hb : base = ""
  · subst hb
    exact absurd (by decide) hs
  · rw [stem_append hb]

theorem append_json_inj {a b : String} : a ++ ".json" = b ++ ".json" ↔ a = b := by
  rw [← String.toList_inj, String.toList_append, String.toList_append, List.append_left_inj,
    String.toList_inj]

end Path

/-! ## Trees in files -/

namespace Disk

open CommitChain.Text

theorem jsonLine_eq_ok {x : Json} {bytes : ByteArray} :
    jsonLine x = .ok bytes ↔ ∃ text, x.canonical = .ok text ∧ (line text).toUTF8 = bytes := by
  rw [jsonLine, bind_eq_ok]
  simp only [orFail_eq_ok, Except.ok.injEq]
  rfl

/-- A tree in a file is read in its canonical form. -/
theorem jsonOfBytes_jsonLine {x : Json} {bytes : ByteArray} (h : jsonLine x = .ok bytes)
    (hd : x.depth ≤ Json.textNestingLimit) : jsonOfBytes bytes = .ok x.canonicalForm := by
  obtain ⟨text, htext, rfl⟩ := jsonLine_eq_ok.1 h
  have hparse : Json.parse (line text) = .ok x.canonicalForm :=
    Json.parse_canonical htext hd (by decide)
  rw [jsonOfBytes, fromUTF8?_toUTF8]
  simp only [hparse]

theorem load_of_find? {disk : Disk} {path : Path} {bytes : ByteArray}
    (h : disk.find? path = some (.file bytes)) : disk.load path = .ok bytes := by
  rw [load, read, h]
  rfl

theorem find?_of_load {disk : Disk} {path : Path} {bytes : ByteArray}
    (h : disk.load path = .ok bytes) : disk.find? path = some (.file bytes) := by
  rw [load, orFail_eq_ok, read] at h
  split at h
  next found hf =>
    cases h
    exact hf
  · exact absurd h (by simp)
  · split at h
    · exact absurd h (by simp)
    · exact absurd h (by simp)

theorem loadJson_of_find? {disk : Disk} {path : Path} {x : Json} {bytes : ByteArray}
    (h : disk.find? path = some (.file bytes)) (hx : jsonLine x = .ok bytes)
    (hd : x.depth ≤ Json.textNestingLimit) : disk.loadJson path = .ok x.canonicalForm := by
  rw [loadJson, load_of_find? h]
  exact jsonOfBytes_jsonLine hx hd

/-! ## Writing -/

variable {path : Path} {disk disk' : Disk}

theorem act_eq_ok {α : Type} {f : Disk → Except Fault α × Disk} {a : α} :
    act f disk = (.ok a, disk') ↔ f disk = (.ok a, disk') := by
  show (orFail .disk (f disk).1, (f disk).2) = _ ↔ _
  rw [Prod.ext_iff, Prod.ext_iff]
  exact and_congr_left fun _ => orFail_eq_ok

theorem act_eq_error {α : Type} {f : Disk → Except Fault α × Disk} {e : Failure}
    (h : act f disk = (.error e, disk')) :
    ∃ fault, e = .disk fault ∧ f disk = (.error fault, disk') := by
  obtain ⟨hr, rfl⟩ := Prod.ext_iff.1 h
  cases hf : (f disk).1 with
  | ok a => exact absurd hr (by simp [act, hf, orFail])
  | error fault =>
    refine ⟨fault, ?_, Prod.ext hf rfl⟩
    simpa [act, hf, orFail] using hr.symm

/-- Bytes that are made of a tree and written, or appended, by one change at a path. -/
def changeJson (path : Path) (f : ByteArray → ByteArray → ByteArray) (x : Json) :
    Action Disk Unit := do
  let bytes ← Action.of (jsonLine x)
  act (change path (f bytes))

theorem changeJson_eq_ok {f : ByteArray → ByteArray → ByteArray} {x : Json} (hp : path ≠ [])
    (h : changeJson path f x disk = (.ok (), disk')) :
    ∃ bytes, jsonLine x = .ok bytes ∧ Beside path disk disk' ∧
      (∀ q ∈ ancestors path, disk'.find? q = some .directory) ∧
      disk'.find? path = some (.file (f bytes (content (disk.find? path)))) := by
  obtain ⟨bytes, _, hof, h⟩ := Action.bind_eq_ok.1 h
  obtain ⟨hbytes, rfl⟩ := Action.of_eq.1 hof
  exact ⟨bytes, hbytes, change_eq_ok hp (act_eq_ok.1 h)⟩

/-- A tree that is not written has no line, or the disk is at fault. -/
theorem changeJson_eq_error {f : ByteArray → ByteArray → ByteArray} {x : Json} {e : Failure}
    (hp : path ≠ []) (h : changeJson path f x disk = (.error e, disk')) :
    (Beside path disk disk' ∧ disk'.find? path = disk.find? path) ∧
      (jsonLine x = .error e ∨ ∃ fault, e = .disk fault) := by
  rcases Action.bind_eq_error.1 h with h | ⟨bytes, _, hbytes, h⟩
  · obtain ⟨hline, rfl⟩ := Action.of_eq.1 h
    exact ⟨⟨.refl path disk, rfl⟩, .inl hline⟩
  · obtain ⟨_, rfl⟩ := Action.of_eq.1 hbytes
    obtain ⟨fault, he, hf⟩ := act_eq_error h
    exact ⟨change_eq_error hp hf, .inr ⟨fault, he⟩⟩

theorem changeJson_beside {f : ByteArray → ByteArray → ByteArray} {x : Json}
    {r : Except Failure Unit} (hp : path ≠ []) (h : changeJson path f x disk = (r, disk')) :
    Beside path disk disk' := by
  cases r with
  | ok u =>
    obtain ⟨_, _, hb, _⟩ := changeJson_eq_ok hp h
    exact hb
  | error e => exact (changeJson_eq_error hp h).1.1

theorem saveBytes_eq_ok {bytes : ByteArray} (hp : path ≠ [])
    (h : saveBytes path bytes disk = (.ok (), disk')) :
    Beside path disk disk' ∧ (∀ q ∈ ancestors path, disk'.find? q = some .directory) ∧
      disk'.find? path = some (.file bytes) :=
  change_eq_ok hp (act_eq_ok.1 h)

theorem saveBytes_eq_error {bytes : ByteArray} {e : Failure} (hp : path ≠ [])
    (h : saveBytes path bytes disk = (.error e, disk')) :
    (Beside path disk disk' ∧ disk'.find? path = disk.find? path) ∧ ∃ fault, e = .disk fault := by
  obtain ⟨fault, he, hf⟩ := act_eq_error h
  exact ⟨change_eq_error hp hf, fault, he⟩

theorem saveBytes_beside {bytes : ByteArray} {r : Except Failure Unit} (hp : path ≠ [])
    (h : saveBytes path bytes disk = (r, disk')) : Beside path disk disk' := by
  cases r with
  | ok u => exact (saveBytes_eq_ok hp h).1
  | error e => exact (saveBytes_eq_error hp h).1.1

theorem saveJson_eq_ok {x : Json} (hp : path ≠ []) (h : saveJson path x disk = (.ok (), disk')) :
    ∃ bytes, jsonLine x = .ok bytes ∧ Beside path disk disk' ∧
      (∀ q ∈ ancestors path, disk'.find? q = some .directory) ∧
      disk'.find? path = some (.file bytes) :=
  changeJson_eq_ok (f := fun bytes _ => bytes) hp h

theorem saveJson_eq_error {x : Json} {e : Failure} (hp : path ≠ [])
    (h : saveJson path x disk = (.error e, disk')) :
    (Beside path disk disk' ∧ disk'.find? path = disk.find? path) ∧
      (jsonLine x = .error e ∨ ∃ fault, e = .disk fault) :=
  changeJson_eq_error (f := fun bytes _ => bytes) hp h

theorem saveJson_beside {x : Json} {r : Except Failure Unit} (hp : path ≠ [])
    (h : saveJson path x disk = (r, disk')) : Beside path disk disk' :=
  changeJson_beside (f := fun bytes _ => bytes) hp h

theorem appendJson_eq_ok {x : Json} (hp : path ≠ [])
    (h : appendJson path x disk = (.ok (), disk')) :
    ∃ bytes, jsonLine x = .ok bytes ∧ Beside path disk disk' ∧
      (∀ q ∈ ancestors path, disk'.find? q = some .directory) ∧
      disk'.find? path = some (.file (content (disk.find? path) ++ bytes)) :=
  changeJson_eq_ok (f := fun bytes old => old ++ bytes) hp h

theorem appendJson_eq_error {x : Json} {e : Failure} (hp : path ≠ [])
    (h : appendJson path x disk = (.error e, disk')) :
    (Beside path disk disk' ∧ disk'.find? path = disk.find? path) ∧
      (jsonLine x = .error e ∨ ∃ fault, e = .disk fault) :=
  changeJson_eq_error (f := fun bytes old => old ++ bytes) hp h

theorem appendJson_beside {x : Json} {r : Except Failure Unit} (hp : path ≠ [])
    (h : appendJson path x disk = (r, disk')) : Beside path disk disk' :=
  changeJson_beside (f := fun bytes old => old ++ bytes) hp h

end Disk

end CommitChain
