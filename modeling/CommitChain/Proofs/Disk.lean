import CommitChain.Disk
import Mathlib.Data.List.Infix

/-!
# Changes on the disk

One change makes the directories above its path and writes there or not; whatever stands elsewhere
stays (`Beside`).
-/

namespace CommitChain.Disk

/-! ## Entries -/

theorem lookup?_putEntry (path other : Path) (entry : Entry) (entries : List (Path × Entry)) :
    lookup? other (putEntry path entry entries)
      = if path = other then some entry else lookup? other entries := by
  induction entries with
  | nil => simp [putEntry, lookup?]
  | cons p r ih => by_cases h : p.1 = path <;> grind [putEntry, lookup?]

theorem lookup?_isSome_of_mem {path : Path} {entry : Entry} {entries : List (Path × Entry)}
    (h : (path, entry) ∈ entries) : ∃ found, lookup? path entries = some found := by
  induction entries with
  | nil => exact absurd h List.not_mem_nil
  | cons p r ih =>
    by_cases hp : p.1 = path
    · exact ⟨p.2, by simp [lookup?, hp]⟩
    · rcases List.mem_cons.1 h with rfl | h
      · exact absurd rfl hp
      · simpa [lookup?, hp] using ih h

theorem mem_of_lookup? {path : Path} {entry : Entry} {entries : List (Path × Entry)}
    (h : lookup? path entries = some entry) : (path, entry) ∈ entries := by
  induction entries with
  | nil => exact absurd h (by simp [lookup?])
  | cons p r ih =>
    obtain ⟨q, e⟩ := p
    rw [lookup?] at h
    split at h
    next hq =>
      cases hq
      cases h
      exact List.mem_cons_self
    next => exact List.mem_cons_of_mem _ (ih h)

theorem find?_of_ne_nil {path : Path} (h : path ≠ []) (disk : Disk) :
    disk.find? path = lookup? path disk.entries := by
  rw [find?, if_neg (by simpa using h)]

theorem contains_of_find? {disk : Disk} {path : Path} {entry : Entry}
    (h : disk.find? path = some entry) : disk.contains path = true := by
  rw [contains, h]
  rfl

/-- The names in a directory are the names of what stands there. -/
theorem mem_names {disk : Disk} {path : Path} {name : String} :
    name ∈ disk.names path ↔ ∃ entry, disk.find? (path ++ [name]) = some entry := by
  have hne : path ++ [name] ≠ [] := by simp
  rw [names, List.mem_mergeSort, List.mem_filterMap, find?_of_ne_nil hne]
  constructor
  · rintro ⟨⟨p, e⟩, hm, h⟩
    cases hl : p.getLast? with
    | none => simp [hl] at h
    | some last =>
      simp only [hl, Option.ite_none_right_eq_some, Option.some.injEq] at h
      obtain ⟨rfl, rfl⟩ := h
      exact lookup?_isSome_of_mem hm
  · rintro ⟨e, he⟩
    exact ⟨_, mem_of_lookup? he, by simp⟩

/-! ## Directories -/

theorem mem_ancestors {path q : Path} : q ∈ ancestors path ↔ q <+: path ∧ q ≠ path := by
  rw [ancestors, List.mem_map]
  constructor
  · rintro ⟨i, hi, rfl⟩
    rw [List.mem_range] at hi
    refine ⟨List.take_prefix i path, fun h => ?_⟩
    have hlength := congrArg List.length h
    rw [List.length_take] at hlength
    omega
  · rintro ⟨hq, hne⟩
    refine ⟨q.length, List.mem_range.2 ?_, (List.prefix_iff_eq_take.1 hq).symm⟩
    exact Nat.lt_of_le_of_ne hq.length_le fun h => hne (hq.eq_of_length h)

/-- A path lies below its directory and what lies above that. -/
theorem mem_ancestors_parent {path q : Path} (h : path ≠ []) :
    q ∈ ancestors (parent path) ++ [parent path] ↔ q ∈ ancestors path := by
  obtain ⟨dir, name, rfl⟩ : ∃ dir name, path = dir ++ [name] :=
    ⟨path.dropLast, path.getLast h, (List.dropLast_append_getLast h).symm⟩
  rw [parent, List.dropLast_concat, List.mem_append, mem_ancestors, mem_ancestors,
    List.mem_singleton, List.prefix_concat_iff]
  constructor
  · rintro (⟨hq, _⟩ | rfl)
    · refine ⟨.inr hq, fun he => ?_⟩
      have hlength := hq.length_le
      rw [he, List.length_append, List.length_singleton] at hlength
      omega
    · exact ⟨.inr (List.prefix_refl _), by simp⟩
  · rintro ⟨rfl | hq, hne⟩
    · exact absurd rfl hne
    · by_cases he : q = dir
      · exact .inr he
      · exact .inl ⟨hq, he⟩

theorem lookup?_makeAll (q : Path) (hq : q ≠ []) (paths : List Path)
    (entries : List (Path × Entry)) :
    lookup? q (paths.foldl (fun es p => if p.isEmpty then es else putEntry p .directory es)
        entries)
      = if q ∈ paths then some .directory else lookup? q entries := by
  induction paths generalizing entries with
  | nil => simp
  | cons p paths ih =>
    rw [List.foldl_cons, ih]
    by_cases hp : p = q
    · have hne : p.isEmpty = false := by simpa using hp ▸ hq
      rw [hne, if_neg Bool.false_ne_true, lookup?_putEntry, if_pos hp]
      simp [hp]
    · have hp' : ¬q = p := fun h => hp h.symm
      cases hpe : p.isEmpty <;> simp [lookup?_putEntry, hp, hp']

/-- What stands on a disk after a directory and those above it were made. -/
theorem makeDirectory_eq_ok {path : Path} {disk made : Disk}
    (h : makeDirectory path disk = .ok made) :
    (∀ q ∈ ancestors path ++ [path], disk.isFile q = false ∧ made.find? q = some .directory) ∧
      (∀ q ∉ ancestors path ++ [path], made.find? q = disk.find? q) ∧
      made.changes = disk.changes ∧ made.refuses = disk.refuses := by
  unfold makeDirectory at h
  split at h
  · exact absurd h (by simp)
  next hancestors =>
    split at h
    · exact absurd h (by simp)
    next hpath =>
      cases h
      refine ⟨fun q hq => ⟨?_, ?_⟩, fun q hq => ?_, rfl, rfl⟩
      · rcases List.mem_append.1 hq with hq | hq
        · exact Bool.eq_false_iff.2 fun hf => hancestors (List.any_eq_true.2 ⟨q, hq, hf⟩)
        · rw [List.mem_singleton.1 hq]
          exact Bool.eq_false_iff.2 hpath
      · by_cases hne : q = []
        · rw [hne]
          rfl
        · rw [find?_of_ne_nil hne, lookup?_makeAll q hne, if_pos hq]
      · by_cases hne : q = []
        · rw [hne]
          rfl
        · rw [find?_of_ne_nil hne, find?_of_ne_nil hne, lookup?_makeAll q hne, if_neg hq]

/-! ## Changes -/

/-- Two disks differ at most at a path and by directories above it. -/
structure Beside (path : Path) (disk disk' : Disk) : Prop where
  others : ∀ q, ¬q <+: path → disk'.find? q = disk.find? q
  above : ∀ q ∈ ancestors path, disk'.find? q = disk.find? q ∨
    disk.isFile q = false ∧ disk'.find? q = some .directory

theorem Beside.refl (path : Path) (disk : Disk) : Beside path disk disk :=
  ⟨fun _ _ => rfl, fun _ _ => .inl rfl⟩

theorem Beside.contains_above {path q : Path} {disk disk' : Disk} (h : Beside path disk disk')
    (hq : q ∈ ancestors path) (hc : disk.contains q = true) : disk'.contains q = true := by
  rcases h.above q hq with he | ⟨_, he⟩
  · rwa [contains, he]
  · exact contains_of_find? he

/-- The bytes that a change works on. -/
def content : Option Entry → ByteArray
  | some (.file bytes) => bytes
  | _ => .empty

variable {path : Path} {f : ByteArray → ByteArray} {disk disk' : Disk}

/-- What the two kinds of outcome of a change have in common. -/
theorem beside_counted {made : Disk} (hp : path ≠ [])
    (h : makeDirectory (parent path) disk = .ok made) (hd : ∀ q, q ≠ path →
      disk'.find? q = made.find? q) :
    Beside path disk disk' ∧ (∀ q ∈ ancestors path, disk'.find? q = some .directory) ∧
      made.find? path = disk.find? path := by
  obtain ⟨hmade, hothers, _⟩ := makeDirectory_eq_ok h
  simp only [mem_ancestors_parent hp] at hmade hothers
  have hne : ∀ q ∈ ancestors path, q ≠ path := fun q hq => (mem_ancestors.1 hq).2
  refine ⟨⟨fun q hq => ?_, fun q hq => .inr ⟨(hmade q hq).1, ?_⟩⟩, fun q hq => ?_, ?_⟩
  · rw [hd q fun he => hq (he ▸ List.prefix_refl q)]
    exact hothers q fun hm => hq (mem_ancestors.1 hm).1
  · rw [hd q (hne q hq), (hmade q hq).2]
  · rw [hd q (hne q hq), (hmade q hq).2]
  · exact hothers path fun hm => (mem_ancestors.1 hm).2 rfl

/-- A change that fails leaves what stands at its path. -/
theorem change_eq_error {e : Fault} (hp : path ≠ []) (h : change path f disk = (.error e, disk')) :
    Beside path disk disk' ∧ disk'.find? path = disk.find? path := by
  unfold change at h
  split at h
  · cases h
    exact ⟨.refl path disk, rfl⟩
  next made hmade =>
    have hcounted : ∀ {e e' : Fault},
        ((.error e', { made with changes := made.changes + 1 }) : Except Fault Unit × Disk)
          = (.error e, disk') →
        Beside path disk disk' ∧ disk'.find? path = disk.find? path := by
      intro e e' he
      cases he
      have hb := beside_counted hp hmade fun _ _ =>
        (rfl : Disk.find? { made with changes := made.changes + 1 } _ = made.find? _)
      exact ⟨hb.1, hb.2.2⟩
    dsimp only at h
    split at h
    · exact hcounted h
    · split at h
      · exact hcounted h
      · exact absurd (congrArg Prod.fst h) (by simp)

/-- A change that succeeds has made the directories above its path and changed the file there. -/
theorem change_eq_ok (hp : path ≠ []) (h : change path f disk = (.ok (), disk')) :
    Beside path disk disk' ∧ (∀ q ∈ ancestors path, disk'.find? q = some .directory) ∧
      disk'.find? path = some (.file (f (content (disk.find? path)))) := by
  unfold change at h
  split at h
  · exact absurd (congrArg Prod.fst h) (by simp)
  next made hmade =>
    dsimp only at h
    split at h
    · exact absurd (congrArg Prod.fst h) (by simp)
    next found hfound =>
      split at h
      · exact absurd (congrArg Prod.fst h) (by simp)
      next hallowed =>
        have hput : ∀ q, q ≠ path → disk'.find? q = made.find? q := fun q hq => by
          cases h
          by_cases hn : q = []
          · rw [hn]
            rfl
          · rw [find?_of_ne_nil hn, find?_of_ne_nil hn, lookup?_putEntry,
              if_neg (Ne.symm hq)]
        obtain ⟨hb, habove, hpath⟩ := beside_counted hp hmade hput
        cases h
        refine ⟨hb, habove, ?_⟩
        rw [find?_of_ne_nil hp, lookup?_putEntry, if_pos rfl, ← hpath]
        rfl

/-- A directory can be made where no file stands in the way. -/
theorem exists_makeDirectory (h : ∀ q ∈ ancestors path ++ [path], disk.isFile q = false) :
    ∃ made, makeDirectory path disk = .ok made := by
  have habove : (ancestors path).any disk.isFile = false :=
    List.any_eq_false.2 fun q hq => by simp [h q (List.mem_append_left _ hq)]
  rw [makeDirectory, habove, h path (by simp)]
  exact ⟨_, rfl⟩

/-- Where no file stands above a path and no directory at it, a change is up to the disk. -/
theorem exists_change (hp : path ≠ []) (f : ByteArray → ByteArray)
    (habove : ∀ q ∈ ancestors path, disk.isFile q = false)
    (hpath : disk.find? path ≠ some .directory) :
    ∃ disk', change path f disk
        = (if disk.refuses disk.changes then .error (.refused path) else .ok (), disk') ∧
      disk'.refuses = disk.refuses ∧ disk'.changes = disk.changes + 1 := by
  obtain ⟨made, hmade⟩ : ∃ made, makeDirectory (parent path) disk = .ok made :=
    exists_makeDirectory fun q hq => habove q ((mem_ancestors_parent hp).1 hq)
  obtain ⟨_, hothers, hchanges, hrefuses⟩ := makeDirectory_eq_ok hmade
  have hfound : made.find? path = disk.find? path :=
    hothers path fun hm => (mem_ancestors.1 ((mem_ancestors_parent hp).1 hm)).2 rfl
  unfold change
  rw [hmade, ← hchanges, ← hrefuses]
  dsimp only
  split
  next hdirectory => exact absurd (hfound.symm.trans hdirectory) hpath
  next => split <;> exact ⟨_, rfl, rfl, rfl⟩

end CommitChain.Disk
