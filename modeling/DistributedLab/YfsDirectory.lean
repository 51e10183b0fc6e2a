import DistributedLab.TextStream
import DistributedLab.YfsFile
import Mathlib.Data.List.AList
import Mathlib.Data.List.TakeWhile

/-!
# Directories

The content of a directory is a text with a word `inum@name` for each entry.  `createfile` appends
a word, `unlink` puts the text together anew from the words it keeps, and each operation parses
the text for itself.  What they make of it is a map from names to numbers in the order of
insertion.

The number of a new file is drawn at random.  The loop that looks for another one if the number
is in use is commented out.
-/

namespace DistributedLab.Yfs

open Extent TextStream Transition

/-! ### The operations -/

/-- The bytes of a string up to the first zero, which is where `strcmp` and `<<` stop. -/
def cstr (buf : Buf) : Buf := buf.takeWhile (· != 0)

/-- The successive words of `ist >> file`. -/
def files (dcontent : Buf) : List String := words (ofBytes dcontent)

/-- `iss >> finum; iss.get(); iss >> fname`.  A word is not empty, so `finum` is set. -/
def parse (file : String) : Nat × Buf :=
  let number := (IStream.on file.toList).readUnsigned (2 ^ 64) 0
  (number.1, toBytes (number.2.get.readString "").1.toList)

/-- `strcmp(fname.c_str(), name) == 0`. -/
def named (file : String) (name : Buf) : Bool := cstr (parse file).2 == cstr name

/-- The `lookupfile` on the content of a directory. -/
def lookupfile (dcontent name : Buf) : XxStatus × Option Nat :=
  match (files dcontent).find? (named · name) with
  | some file => (.exist, some (parse file).1)
  | none => (.ok, none)

/-- `ost << inum << '@' << name`. -/
def entryText (inum : Nat) (name : Buf) : Buf := toBytes (Nat.toDigits 10 inum) ++ 64 :: cstr name

/-- The value of `random()`, with the bit that tells a file from a directory. -/
def drawn (f : Bool) (random : Fin (2 ^ 31)) : UInt64 :=
  if f then UInt64.ofNat random ||| 0x80000000 else UInt64.ofNat random &&& 0x7FFFFFFF

/-- The client waits for ever if it draws the number of the directory, the lock of which it has. -/
def YfsClient.createfile (s : YfsClient) (dinum : Nat) (f : Bool) (name : Buf)
    (random : Fin (2 ^ 31)) (m : Moments) : Option (XxStatus × UInt64 × YfsClient) :=
  let inum := drawn f random
  if inum.toNat = dinum then none
  else
    match s.get dinum (m 0) with
    | (.ok, dcontent, s) =>
        if (lookupfile dcontent name).1 = .ok then
          match s.put dinum (m 1) (dcontent ++ 32 :: entryText inum.toNat name) with
          | (.ok, s) =>
              match s.put inum.toNat (m 2) [] with
              | (.ok, s) => some (.ok, inum, s)
              | (_, s) => some (.ioerr, inum, s)
          | (_, s) => some (.ioerr, inum, s)
        else some (.exist, inum, s)
    | (_, _, s) => some (.noent, inum, s)

def YfsClient.lookupfile (s : YfsClient) (dinum : Nat) (name : Buf) (m : Moments) :
    XxStatus × Option Nat × YfsClient :=
  match s.get dinum (m 0) with
  | (.ok, dcontent, s) =>
      ((Yfs.lookupfile dcontent name).1, (Yfs.lookupfile dcontent name).2, s)
  | (_, _, s) => (.noent, none, s)

/-- Entries that `unlink` writes back. -/
def keeps (name : Buf) (file : String) : Bool := !named file name || isdir (parse file).1

/-- The loop of `unlink`: the new text, how many entries it has, and the last number found. -/
def unlinkLoop (name : Buf) : List String → Buf → Nat → Option Nat → Buf × Option Nat
  | [], ost, _, found => (ost, found)
  | file :: rest, ost, count, found =>
      if keeps name file then
        let ost := if count > 0 then ost ++ [32] else ost
        unlinkLoop name rest (ost ++ toBytes file.toList) (count + 1) found
      else unlinkLoop name rest ost count (some (parse file).1)

def YfsClient.unlink (s : YfsClient) (parent : Nat) (name : Buf) (m : Moments) :
    XxStatus × YfsClient :=
  if isdir parent then
    match s.get parent (m 0) with
    | (.ok, content, s) =>
        match unlinkLoop name (files content) [] 0 none with
        | (_, none) => (.noent, s)
        | (ost, some inum) =>
            -- `inum` is a file and `parent` is none, so `remove` takes another lock
            match s.remove inum with
            | (.ok, s) =>
                match s.put parent (m 1) ost with
                | (.ok, s) => (.ok, s)
                | (_, s) => (.ioerr, s)
            | (_, s) => (.ioerr, s)
    | (_, _, s) => (.noent, s)
  else (.noent, s)

inductive Errno where
  | enotdir
  | enoent
deriving DecidableEq, Repr

/-- `fuseserver_readdir`: the names and numbers that it passes to `dirbuf_add`. -/
def YfsClient.readdir (s : YfsClient) (inum : Nat) (m : Moments) :
    Except Errno (List (Buf × Nat)) × YfsClient :=
  if isdir inum then
    match s.get inum (m 0) with
    | (.ok, buf, s) =>
        (.ok ((files buf).map fun file => (cstr (parse file).2, (parse file).1)), s)
    | (_, _, s) => (.error .enoent, s)
  else (.error .enotdir, s)

/-! ### The text of an entry -/

/-- Names as the file system allows them: not empty, without blanks, and C strings. -/
structure Name where
  bytes : Buf
  nonempty : bytes ≠ []
  visible : ∀ b ∈ bytes, isSpace (charOf b) = false
  terminated : ∀ b ∈ bytes, b ≠ 0
deriving DecidableEq

/-- A map from names to numbers; the entry that was inserted last is the first. -/
abbrev Directory := AList fun _ : Name => UInt64

/-- The word of an entry. -/
def entryWord (e : Σ _ : Name, UInt64) : String :=
  String.ofList (Nat.toDigits 10 e.2.toNat ++ '@' :: ofBytes e.1.bytes)

section Text

variable (e : Σ _ : Name, UInt64) (name : Name)

theorem cstr_bytes : cstr name.bytes = name.bytes :=
  List.takeWhile_eq_self_iff.mpr fun b hb => bne_iff_ne.mpr (name.terminated b hb)

theorem Name.bytes_injective : Function.Injective Name.bytes := by
  rintro ⟨left, _, _, _⟩ ⟨right, _, _, _⟩ rfl
  rfl

theorem isSpace_of_mem_name {c : Char} (hc : c ∈ ofBytes name.bytes) : isSpace c = false := by
  obtain ⟨b, hb, rfl⟩ := List.mem_map.mp hc
  exact name.visible b hb

theorem Name.isWord : IsWord (String.ofList (ofBytes name.bytes)) := by
  refine ⟨?_, ?_⟩
  · intro hempty
    have hnil : ofBytes name.bytes = [] := by simpa using congrArg String.toList hempty
    exact name.nonempty (List.map_eq_nil_iff.mp hnil)
  · rw [String.toList_ofList]
    exact fun c hc => isSpace_of_mem_name name hc

theorem isDigit_of_mem_toDigits {n : Nat} {c : Char} (hc : c ∈ Nat.toDigits 10 n) :
    c.isDigit = true :=
  Nat.isDigit_of_mem_toDigits (by decide) (by decide) hc

theorem toList_entryWord :
    (entryWord e).toList = Nat.toDigits 10 e.2.toNat ++ '@' :: ofBytes e.1.bytes :=
  String.toList_ofList

theorem isWord_entryWord : IsWord (entryWord e) := by
  refine ⟨?_, ?_⟩
  · intro hempty
    have htext := toList_entryWord e
    rw [hempty] at htext
    simp at htext
  · rw [toList_entryWord]
    refine List.forall_mem_append.mpr ⟨?_, List.forall_mem_cons.mpr ⟨by decide, ?_⟩⟩
    · exact fun c hc => isSpace_eq_false_of_isDigit (isDigit_of_mem_toDigits hc)
    · exact fun c hc => isSpace_of_mem_name e.1 hc

/-- The parse inverts the print, also of names with digits and `@` in them. -/
theorem parse_entryWord : parse (entryWord e) = (e.2.toNat, e.1.bytes) := by
  have hnumber : (IStream.on (entryWord e).toList).readUnsigned (2 ^ 64) 0 =
      (e.2.toNat, IStream.on ('@' :: ofBytes e.1.bytes)) := by
    rw [toList_entryWord]
    exact IStream.readUnsigned_blanks_toDigits (List.forall_mem_nil _) e.2.toNat_lt (by decide)
  have hname : (IStream.on (ofBytes e.1.bytes)).readString "" =
      (String.ofList (ofBytes e.1.bytes), { rest := [], eof := true }) := by
    have hread := @IStream.readString_last _ "" e.1.isWord
    rwa [String.toList_ofList] at hread
  simp only [parse, hnumber, IStream.get_cons, hname, String.toList_ofList, toBytes_ofBytes]

theorem named_entryWord : named (entryWord e) name.bytes = decide (name = e.1) := by
  rw [named, parse_entryWord, cstr_bytes, cstr_bytes]
  by_cases heq : name = e.1
  · subst heq
    simp
  · have hne : e.1.bytes ≠ name.bytes := fun h => heq (Name.bytes_injective h).symm
    simp [hne, heq]

theorem ofBytes_entryText (inum : UInt64) :
    ofBytes (entryText inum.toNat name.bytes) = (entryWord ⟨name, inum⟩).toList := by
  have hdigits : ofBytes (toBytes (Nat.toDigits 10 inum.toNat)) = Nat.toDigits 10 inum.toNat := by
    apply ofBytes_toBytes
    intro c hc
    have hdigit := isDigit_of_mem_toDigits hc
    simp only [Char.isDigit, Bool.and_eq_true, decide_eq_true_eq] at hdigit
    exact Nat.lt_of_le_of_lt hdigit.2 (by decide)
  rw [toList_entryWord, ← hdigits, entryText, cstr_bytes]
  simp only [ofBytes, List.map_append, List.map_cons]
  rfl

end Text

/-! ### The text of a directory -/

theorem files_append (dcontent more : Buf) :
    files (dcontent ++ 32 :: more) = files dcontent ++ files more := by
  have hsplit : ofBytes (dcontent ++ 32 :: more) = ofBytes dcontent ++ ' ' :: ofBytes more := by
    simp only [ofBytes, List.map_append, List.map_cons]
    rfl
  rw [files, hsplit, words_append _ (by decide)]
  rfl

theorem files_entryText (name : Name) (inum : UInt64) :
    files (entryText inum.toNat name.bytes) = [entryWord ⟨name, inum⟩] := by
  rw [files, ofBytes_entryText]
  exact words_last (isWord_entryWord _)

theorem toBytes_entryWord (e : Σ _ : Name, UInt64) :
    toBytes (entryWord e).toList = entryText e.2.toNat e.1.bytes := by
  rw [← ofBytes_entryText, toBytes_ofBytes]

/-- The words of the text are the entries in the order of insertion. -/
def Represents (dcontent : Buf) (d : Directory) : Prop :=
  files dcontent = d.entries.reverse.map entryWord

theorem lookup_reverse (d : Directory) (name : Name) :
    d.entries.reverse.dlookup name = d.lookup name :=
  (List.perm_dlookup name d.nodupKeys d.entries.reverse_perm.symm).symm

section Represents

variable {dcontent : Buf} {d : Directory} {name : Name} {inum : UInt64}

theorem find?_files (h : Represents dcontent d) (name : Name) :
    (files dcontent).find? (named · name.bytes) =
      (d.lookup name).map fun inum => entryWord ⟨name, inum⟩ := by
  have hnamed : (named · name.bytes) ∘ entryWord = fun e => decide (name = e.1) :=
    funext fun e => named_entryWord e name
  rw [h, List.find?_map, hnamed, ← List.map_dlookup_eq_find, lookup_reverse, Option.map_map]
  rfl

theorem lookupfile_none (h : Represents dcontent d) (hname : d.lookup name = none) :
    lookupfile dcontent name.bytes = (.ok, none) := by
  simp only [lookupfile, find?_files h, hname, Option.map_none]

theorem lookupfile_some (h : Represents dcontent d) (hname : d.lookup name = some inum) :
    lookupfile dcontent name.bytes = (.exist, some inum.toNat) := by
  simp only [lookupfile, find?_files h, hname, Option.map_some, parse_entryWord]

theorem Represents.insert (h : Represents dcontent d) (hname : name ∉ d) (inum : UInt64) :
    Represents (dcontent ++ 32 :: entryText inum.toNat name.bytes) (d.insert name inum) := by
  rw [Represents, files_append, files_entryText, h, AList.entries_insert_of_notMem hname,
    List.reverse_cons, List.map_append]
  rfl

theorem listing_eq (h : Represents dcontent d) :
    (files dcontent).map (fun file => (cstr (parse file).2, (parse file).1)) =
      d.entries.reverse.map fun e => (e.1.bytes, e.2.toNat) := by
  rw [h, List.map_map]
  apply List.map_congr_left
  intro e _
  simp only [Function.comp_apply, parse_entryWord, cstr_bytes]

/-! `unlink` copies the entries before and after the one that it drops. -/

theorem keeps_entryWord (e : Σ _ : Name, UInt64) (name : Name) :
    keeps name.bytes (entryWord e) = (decide (name ≠ e.1) || isdir e.2.toNat) := by
  rw [keeps, named_entryWord, parse_entryWord, decide_not]

theorem unlinkLoop_kept {name : Buf} {l : List (Σ _ : Name, UInt64)}
    (hkeeps : ∀ e ∈ l, keeps name (entryWord e) = true) {ost : Buf} {count : Nat}
    (hfirst : count = 0 → ost = []) (rest : List String) (found : Option Nat) :
    ∃ ost' count', (count' = 0 → ost' = []) ∧
      unlinkLoop name (l.map entryWord ++ rest) ost count found =
        unlinkLoop name rest ost' count' found ∧
      files ost' = files ost ++ l.map entryWord := by
  induction l generalizing ost count with
  | nil => exact ⟨ost, count, hfirst, rfl, (List.append_nil _).symm⟩
  | cons e l ih =>
      obtain ⟨hkeep, hrest⟩ := List.forall_mem_cons.mp hkeeps
      let next := (if count > 0 then ost ++ [32] else ost) ++ toBytes (entryWord e).toList
      have hcopied : files next = files ost ++ [entryWord e] := by
        simp only [next, toBytes_entryWord]
        by_cases hcount : count > 0
        · rw [if_pos hcount, List.append_assoc, List.singleton_append, files_append,
            files_entryText]
        · rw [if_neg hcount, hfirst (by omega), List.nil_append, files_entryText]
          rfl
      have hnext : count + 1 = 0 → next = [] := fun h => absurd h count.succ_ne_zero
      obtain ⟨ost', count', hfirst', hloop, hfiles⟩ := ih hrest hnext
      refine ⟨ost', count', hfirst', ?_, ?_⟩
      · rw [List.map_cons, List.cons_append, unlinkLoop, if_pos hkeep]
        exact hloop
      · rw [hfiles, hcopied, List.append_assoc, List.map_cons, List.singleton_append]

theorem keeps_of_ne {l : List (Σ _ : Name, UInt64)} (h : name ∉ l.keys) :
    ∀ e ∈ l.reverse, keeps name.bytes (entryWord e) = true := by
  intro e he
  have hne : name ≠ e.1 := by
    rintro rfl
    exact h (List.mem_keys_of_mem (List.mem_reverse.mp he))
  simp [keeps_entryWord, hne]

/-- All entries stay if the name is not there, or is that of a directory. -/
theorem unlinkLoop_absent (h : Represents dcontent d)
    (hname : ∀ inum, d.lookup name = some inum → isdir inum.toNat = true) :
    (unlinkLoop name.bytes (files dcontent) [] 0 none).2 = none := by
  have hkeeps : ∀ e ∈ d.entries.reverse, keeps name.bytes (entryWord e) = true := by
    rintro ⟨other, inum⟩ he
    rw [keeps_entryWord]
    by_cases heq : name = other
    · subst heq
      have hlookup : d.lookup name = some inum :=
        AList.mem_lookup_iff.mpr (List.mem_reverse.mp he)
      simp [hname inum hlookup]
    · simp [heq]
  obtain ⟨ost, count, -, hloop, -⟩ := unlinkLoop_kept hkeeps (fun _ => rfl) [] none
  rw [h, ← List.append_nil (List.map entryWord _), hloop]
  rfl

theorem unlinkLoop_file (h : Represents dcontent d) (hname : d.lookup name = some inum)
    (hfile : isfile inum.toNat = true) :
    ∃ ost, unlinkLoop name.bytes (files dcontent) [] 0 none = (ost, some inum.toNat) ∧
      Represents ost (d.erase name) := by
  have hmem : name ∈ d.entries.keys := AList.lookup_isSome.mp (by rw [hname]; rfl)
  obtain ⟨number, newer, older, hnewer, hentries, herase⟩ := List.exists_of_kerase hmem
  have holder : name ∉ older.keys := by
    have hnodup := d.nodupKeys
    rw [hentries] at hnodup
    exact (List.nodupKeys_cons.mp (hnodup.sublist (List.sublist_append_right newer _))).1
  have hnumber : number = inum := by
    have hlookup : d.entries.dlookup name = some inum := hname
    rw [hentries, List.dlookup_append, List.dlookup_eq_none.mpr hnewer, Option.none_or,
      List.dlookup_cons_eq] at hlookup
    exact Option.some.inj hlookup
  subst hnumber
  have hdrops : ¬ keeps name.bytes (entryWord ⟨name, number⟩) = true := by
    simp [keeps_entryWord, isdir, hfile]
  -- the older entries come first in the text
  have htext : files dcontent = older.reverse.map entryWord ++
      entryWord ⟨name, number⟩ :: (newer.reverse.map entryWord ++ []) := by
    rw [h, hentries]
    simp
  obtain ⟨ost, count, hfirst, hbefore, hfiles⟩ := unlinkLoop_kept (keeps_of_ne holder)
    (fun _ => rfl) (entryWord ⟨name, number⟩ :: (newer.reverse.map entryWord ++ [])) none
  obtain ⟨ost', count', -, hafter, hfiles'⟩ := unlinkLoop_kept (keeps_of_ne hnewer) hfirst []
    (some number.toNat)
  refine ⟨ost', ?_, ?_⟩
  · rw [htext, hbefore, unlinkLoop, if_neg hdrops, parse_entryWord, hafter]
    rfl
  · have hkept : (d.erase name).entries = newer ++ older := herase
    rw [Represents, hfiles', hfiles, hkept, List.reverse_append, List.map_append]
    rfl

end Represents

/-! ### Creating a file -/

section Create

variable {s : YfsClient} {dinum : Nat} {f : Bool} {name dcontent : Buf} {random : Fin (2 ^ 31)}

theorem createfile_ok (m : Moments) (hinum : (drawn f random).toNat ≠ dinum)
    (hcontent : s.content dinum = some dcontent) (hname : (lookupfile dcontent name).1 = .ok) :
    ∃ t, s.createfile dinum f name random m = some (.ok, drawn f random, t) ∧
      t.content = Function.update (Function.update s.content dinum
        (some (dcontent ++ 32 :: entryText (drawn f random).toNat name)))
        (drawn f random).toNat (some []) := by
  obtain ⟨between, hget, hbetween⟩ := YfsClient.get_some (m := m 0) hcontent
  let entered := (between.put dinum (m 1)
    (dcontent ++ 32 :: entryText (drawn f random).toNat name)).2
  refine ⟨(entered.put (drawn f random).toNat (m 2) []).2, ?_, ?_⟩
  · simp only [YfsClient.createfile, if_neg hinum, hget, if_pos hname]
    rfl
  · rw [YfsClient.content_put, YfsClient.content_put, hbetween]

theorem createfile_exist (m : Moments) (hinum : (drawn f random).toNat ≠ dinum)
    (hcontent : s.content dinum = some dcontent) (hname : (lookupfile dcontent name).1 ≠ .ok) :
    ∃ t, s.createfile dinum f name random m = some (.exist, drawn f random, t) ∧
      t.content = s.content := by
  obtain ⟨t, hget, ht⟩ := YfsClient.get_some (m := m 0) hcontent
  refine ⟨t, ?_, ht⟩
  simp only [YfsClient.createfile, if_neg hinum, hget, if_neg hname]

/-- What is known if `createfile` returns `OK`. -/
theorem createfile_cases {t : YfsClient} {inum : UInt64} {m : Moments}
    (h : s.createfile dinum f name random m = some (.ok, inum, t)) :
    inum.toNat ≠ dinum ∧ ∃ dcontent, s.content dinum = some dcontent ∧
      t.content = Function.update (Function.update s.content dinum
        (some (dcontent ++ 32 :: entryText inum.toNat name))) inum.toNat (some []) := by
  by_cases hinum : (drawn f random).toNat = dinum
  · simp only [YfsClient.createfile, if_pos hinum] at h
    cases h
  · rcases hcontent : s.content dinum with _ | dcontent
    · obtain ⟨between, hget⟩ := YfsClient.get_none (m := m 0) hcontent
      simp only [YfsClient.createfile, if_neg hinum, hget] at h
      cases h
    · by_cases hname : (lookupfile dcontent name).1 = .ok
      · obtain ⟨t', hcreate, ht'⟩ := createfile_ok m hinum hcontent hname
        cases hcreate.symm.trans h
        exact ⟨hinum, dcontent, rfl, ht'⟩
      · obtain ⟨t', hcreate, -⟩ := createfile_exist m hinum hcontent hname
        cases hcreate.symm.trans h

end Create

/-- A new file disturbs nothing: its number was not in use, it is empty, the directory has one
    entry more, and no other extent changes. -/
structure Undisturbed (s t : YfsClient) (dinum : Nat) (name : Buf) (inum : Nat) : Prop where
  unused : s.content inum = none
  empty : t.content inum = some []
  others : ∀ eid, eid ≠ dinum → eid ≠ inum → t.content eid = s.content eid
  entered : ∃ dcontent, s.content dinum = some dcontent ∧
    t.content dinum = some (dcontent ++ 32 :: entryText inum name)

/-- **A new file disturbs nothing exactly if its number is not in use.**  If there is an extent of
    this number, then its content is lost; the other extents are safe in any case. -/
theorem create_undisturbed_iff {s t : YfsClient} {dinum : Nat} {f : Bool} {name : Buf}
    {random : Fin (2 ^ 31)} {m : Moments} {inum : UInt64}
    (h : s.createfile dinum f name random m = some (.ok, inum, t)) :
    (Undisturbed s t dinum name inum.toNat ↔ s.content inum.toNat = none) ∧
      t.content inum.toNat = some [] ∧
      ∀ eid, eid ≠ dinum → eid ≠ inum.toNat → t.content eid = s.content eid := by
  obtain ⟨hinum, dcontent, hcontent, ht⟩ := createfile_cases h
  have hempty : t.content inum.toNat = some [] := by rw [ht, Function.update_self]
  have hothers : ∀ eid, eid ≠ dinum → eid ≠ inum.toNat → t.content eid = s.content eid := by
    intro eid hdir hnew
    rw [ht, Function.update_of_ne hnew, Function.update_of_ne hdir]
  refine ⟨⟨Undisturbed.unused, fun hunused => ⟨hunused, hempty, hothers, dcontent, hcontent, ?_⟩⟩,
    hempty, hothers⟩
  rw [ht, Function.update_of_ne hinum.symm, Function.update_self]

theorem create_undisturbed_iff_first :
    ∃ t, YfsClient.start.createfile 1 true [97] 5 noon = some (.ok, 0x80000005, t) ∧
      Undisturbed YfsClient.start t 1 [97] 0x80000005 := by
  have hroot : YfsClient.start.content 1 = some [] := by decide +kernel
  obtain ⟨t, hcreate, -⟩ : ∃ t, YfsClient.start.createfile 1 true [97] 5 noon =
      some (.ok, drawn true 5, t) ∧ _ := createfile_ok noon (by decide) hroot (by decide +kernel)
  exact ⟨t, hcreate, (create_undisturbed_iff hcreate).1.mpr (by decide +kernel)⟩

/-- The file `a` holds one byte when the file `b` draws the same number.  The byte is lost. -/
theorem collision_truncates_file :
    ∃ a s t, YfsClient.start.createfile 1 true [97] 5 noon = some (.ok, 0x80000005, a) ∧
      a.write 0x80000005 0 [120] noon = (.ok, s) ∧ s.content 0x80000005 = some [120] ∧
      s.createfile 1 true [98] 5 noon = some (.ok, 0x80000005, t) ∧
      t.content 0x80000005 = some [] ∧ ¬ Undisturbed s t 1 [98] 0x80000005 := by
  have hdrawn : (drawn true 5).toNat ≠ 1 := by decide
  have hroot : YfsClient.start.content 1 = some [] := by decide +kernel
  have hfirst : (lookupfile [] [97]).1 = .ok := by decide +kernel
  obtain ⟨a, hcreate, ha⟩ := createfile_ok noon hdrawn hroot hfirst
  obtain ⟨s, hwrite, hs⟩ := YfsClient.modify_some
    (show a.content 0x80000005 = some [] by rw [ha]; exact Function.update_self ..)
    (overwrite 0 [120]) noon
  have hfile : s.content 0x80000005 = some [120] := by
    rw [hs, Function.update_self]
    decide
  have hdir : s.content 1 = some (32 :: entryText 0x80000005 [97]) := by
    rw [hs, ha]
    rfl
  have hsecond : (lookupfile (32 :: entryText 0x80000005 [97]) [98]).1 = .ok := by decide +kernel
  obtain ⟨t, hagain, ht⟩ := createfile_ok noon hdrawn hdir hsecond
  refine ⟨a, s, t, hcreate, hwrite, hfile, hagain, ?_, ?_⟩
  · rw [ht]
    exact Function.update_self ..
  · intro h
    have hunused := h.unused
    rw [hfile] at hunused
    cases hunused

/-! ### Directories as maps -/

inductive DirCall where
  | createfile (f : Bool) (name : Name) (random : Fin (2 ^ 31))
  | lookupfile (name : Name)
  | unlink (name : Name)
  | readdir

inductive DirResult where
  | created (status : XxStatus) (inum : UInt64)
  | found (status : XxStatus) (inum : Option Nat)
  | unlinked (status : XxStatus)
  | listed (listing : Except Errno (List (Buf × Nat)))

def DirCall.onClient (dinum : Nat) (s : YfsClient) (call : DirCall × Moments) :
    Option (DirResult × YfsClient) :=
  match call with
  | (.createfile f name random, m) =>
      (s.createfile dinum f name.bytes random m).map fun out =>
        (.created out.1 out.2.1, out.2.2)
  | (.lookupfile name, m) =>
      let out := s.lookupfile dinum name.bytes m
      some (.found out.1 out.2.1, out.2.2)
  | (.unlink name, m) =>
      let out := s.unlink dinum name.bytes m
      some (.unlinked out.1, out.2)
  | (.readdir, m) =>
      let out := s.readdir dinum m
      some (.listed out.1, out.2)

/-- The calls on a map. -/
def DirCall.onMap (d : Directory) : DirCall → Option (DirResult × Directory)
  | .createfile f name random =>
      if name ∈ d then some (.created .exist (drawn f random), d)
      else some (.created .ok (drawn f random), d.insert name (drawn f random))
  | .lookupfile name =>
      match d.lookup name with
      | some inum => some (.found .exist (some inum.toNat), d)
      | none => some (.found .ok none, d)
  | .unlink name =>
      match d.lookup name with
      | some inum =>
          if isfile inum.toNat then some (.unlinked .ok, d.erase name)
          else some (.unlinked .noent, d)
      | none => some (.unlinked .noent, d)
  | .readdir => some (.listed (.ok (d.entries.reverse.map fun e => (e.1.bytes, e.2.toNat))), d)

/-- The number that is drawn is not that of the directory.  A number that is not in use is not. -/
def DirCall.Avoids (dinum : Nat) : DirCall → Prop
  | .createfile f _ random => (drawn f random).toNat ≠ dinum
  | .lookupfile _ => True
  | .unlink _ => True
  | .readdir => True

instance (dinum : Nat) (call : DirCall) : Decidable (call.Avoids dinum) :=
  match call with
  | .createfile f _ random => inferInstanceAs (Decidable ((drawn f random).toNat ≠ dinum))
  | .lookupfile _ => inferInstanceAs (Decidable True)
  | .unlink _ => inferInstanceAs (Decidable True)
  | .readdir => inferInstanceAs (Decidable True)

def YfsClient.Keeps (dinum : Nat) (s : YfsClient) (d : Directory) : Prop :=
  ∃ dcontent, s.content dinum = some dcontent ∧ Represents dcontent d

section Steps

variable {s : YfsClient} {dinum : Nat} {d : Directory} {name : Name} {m : Moments}

theorem YfsClient.Keeps.createfile {f : Bool} {random : Fin (2 ^ 31)} (h : s.Keeps dinum d)
    (havoids : (drawn f random).toNat ≠ dinum) :
    Agree (DirCall.onClient dinum) DirCall.onMap (YfsClient.Keeps dinum) s d
      (.createfile f name random, m) (.createfile f name random) := by
  obtain ⟨dcontent, hcontent, hd⟩ := h
  by_cases hname : name ∈ d
  · obtain ⟨inum, hlookup⟩ := Option.isSome_iff_exists.mp (AList.lookup_isSome.mpr hname)
    have hexist : (Yfs.lookupfile dcontent name.bytes).1 ≠ .ok := by
      simp [lookupfile_some hd hlookup]
    obtain ⟨t, hcreate, ht⟩ := createfile_exist m havoids hcontent hexist
    refine ⟨_, t, d, ?_, if_pos hname, dcontent, ?_, hd⟩
    · rw [DirCall.onClient, hcreate]
      rfl
    · rw [ht, hcontent]
  · have hlookup := AList.lookup_eq_none.mpr hname
    have hok : (Yfs.lookupfile dcontent name.bytes).1 = .ok := by rw [lookupfile_none hd hlookup]
    obtain ⟨t, hcreate, ht⟩ := createfile_ok m havoids hcontent hok
    refine ⟨_, t, _, ?_, if_neg hname, _, ?_, hd.insert hname (drawn f random)⟩
    · rw [DirCall.onClient, hcreate]
      rfl
    · rw [ht, Function.update_of_ne havoids.symm, Function.update_self]

theorem YfsClient.Keeps.lookupfile (h : s.Keeps dinum d) :
    Agree (DirCall.onClient dinum) DirCall.onMap (YfsClient.Keeps dinum) s d
      (.lookupfile name, m) (.lookupfile name) := by
  obtain ⟨dcontent, hcontent, hd⟩ := h
  obtain ⟨t, hget, ht⟩ := YfsClient.get_some (m := m 0) hcontent
  have hkeeps : t.Keeps dinum d := ⟨dcontent, by rw [ht, hcontent], hd⟩
  rcases hlookup : d.lookup name with _ | inum
  · refine ⟨.found .ok none, t, d, ?_, ?_, hkeeps⟩
    · simp only [DirCall.onClient, YfsClient.lookupfile, hget, lookupfile_none hd hlookup]
    · simp only [DirCall.onMap, hlookup]
  · refine ⟨.found .exist (some inum.toNat), t, d, ?_, ?_, hkeeps⟩
    · simp only [DirCall.onClient, YfsClient.lookupfile, hget, lookupfile_some hd hlookup]
    · simp only [DirCall.onMap, hlookup]

theorem YfsClient.Keeps.unlink (h : s.Keeps dinum d) (hdir : isdir dinum = true) :
    Agree (DirCall.onClient dinum) DirCall.onMap (YfsClient.Keeps dinum) s d
      (.unlink name, m) (.unlink name) := by
  obtain ⟨dcontent, hcontent, hd⟩ := h
  obtain ⟨between, hget, hbetween⟩ := YfsClient.get_some (m := m 0) hcontent
  have hkeeps : between.Keeps dinum d := ⟨dcontent, by rw [hbetween, hcontent], hd⟩
  have hstays : (∀ inum, d.lookup name = some inum → isdir inum.toNat = true) →
      DirCall.onClient dinum s (.unlink name, m) = some (.unlinked .noent, between) := by
    intro habsent
    have hnone := unlinkLoop_absent hd habsent
    rcases hloop : unlinkLoop name.bytes (files dcontent) [] 0 none with ⟨ost, found⟩
    rw [hloop] at hnone
    obtain rfl : found = none := hnone
    simp only [DirCall.onClient, YfsClient.unlink, if_pos hdir, hget, hloop]
  rcases hlookup : d.lookup name with _ | inum
  · refine ⟨.unlinked .noent, between, d, hstays (by simp [hlookup]), ?_, hkeeps⟩
    simp only [DirCall.onMap, hlookup]
  · by_cases hfile : isfile inum.toNat = true
    · obtain ⟨ost, hloop, host⟩ := unlinkLoop_file hd hlookup hfile
      refine ⟨.unlinked .ok, ((between.remove inum.toNat).2.put dinum (m 1) ost).2,
        d.erase name, ?_, ?_, ost, ?_, host⟩
      · simp only [DirCall.onClient, YfsClient.unlink, if_pos hdir, hget, hloop]
        rfl
      · simp only [DirCall.onMap, hlookup, if_pos hfile]
      · rw [YfsClient.content_put, Function.update_self]
    · refine ⟨.unlinked .noent, between, d, hstays (by simp [hlookup, isdir, hfile]), ?_, hkeeps⟩
      simp only [DirCall.onMap, hlookup, if_neg hfile]

theorem YfsClient.Keeps.readdir (h : s.Keeps dinum d) (hdir : isdir dinum = true) :
    Agree (DirCall.onClient dinum) DirCall.onMap (YfsClient.Keeps dinum) s d
      (.readdir, m) .readdir := by
  obtain ⟨dcontent, hcontent, hd⟩ := h
  obtain ⟨t, hget, ht⟩ := YfsClient.get_some (m := m 0) hcontent
  refine ⟨_, t, d, ?_, rfl, dcontent, by rw [ht, hcontent], hd⟩
  simp only [DirCall.onClient, YfsClient.readdir, if_pos hdir, hget, listing_eq hd]

end Steps

/-- A listing names no entry twice. -/
def DirResult.Distinct : DirResult → Prop
  | .listed (.ok listing) => (listing.map Prod.fst).Nodup
  | _ => True

theorem nodup_listing (d : Directory) :
    ((d.entries.reverse.map fun e => (e.1.bytes, e.2.toNat)).map Prod.fst).Nodup := by
  have hnames : (d.entries.reverse.map fun e => (e.1.bytes, e.2.toNat)).map Prod.fst =
      (d.keys.map Name.bytes).reverse := by
    rw [List.map_map, List.map_reverse, AList.keys, List.keys, List.map_map]
    rfl
  rw [hnames, List.nodup_reverse]
  exact d.keys_nodup.map Name.bytes_injective

theorem DirCall.distinct_onMap {d next : Directory} {call : DirCall} {out : DirResult}
    (h : DirCall.onMap d call = some (out, next)) : out.Distinct := by
  cases call with
  | createfile f name random =>
      simp only [DirCall.onMap] at h
      split at h <;> cases h <;> exact trivial
  | lookupfile name =>
      simp only [DirCall.onMap] at h
      split at h <;> cases h <;> exact trivial
  | unlink name =>
      simp only [DirCall.onMap] at h
      split at h
      · split at h <;> cases h <;> exact trivial
      · cases h
        exact trivial
  | readdir =>
      cases h
      exact nodup_listing d

/-- **Directories are maps.**  A sequence of calls returns from a directory what it returns from
    a map from names to numbers in the order of insertion, and leaves in the directory what it
    leaves in the map.  No name is listed twice. -/
theorem directory_is_map {s : YfsClient} {dinum : Nat} {d : Directory}
    (hdir : isdir dinum = true) (h : s.Keeps dinum d) (calls : List (DirCall × Moments))
    (hcalls : ∀ call ∈ calls, call.1.Avoids dinum) :
    ∃ outs t d', results (DirCall.onClient dinum) s calls = some (outs, t) ∧
      results DirCall.onMap d (calls.map Prod.fst) = some (outs, d') ∧ t.Keeps dinum d' ∧
      ∀ out ∈ outs, out.Distinct := by
  have hstep : ∀ call ∈ calls, ∀ (state : YfsClient) (map : Directory), state.Keeps dinum map →
      Agree (DirCall.onClient dinum) DirCall.onMap (YfsClient.Keeps dinum) state map
        call call.1 := by
    rintro ⟨call, m⟩ hmem state map hstate
    cases call with
    | createfile f name random => exact hstate.createfile (hcalls _ hmem)
    | lookupfile name => exact hstate.lookupfile
    | unlink name => exact hstate.unlink hdir
    | readdir => exact hstate.readdir hdir
  obtain ⟨outs, t, d', hclient, hmap, ht⟩ := results_refine hstep h
  refine ⟨outs, t, d', hclient, hmap, ht, ?_⟩
  exact forall_mem_results (fun _ _ _ _ => DirCall.distinct_onMap) hmap

/-! The names `a` and `1@`. -/

def nameA : Name :=
  ⟨[97], by decide, List.forall_mem_singleton.mpr (by decide),
    List.forall_mem_singleton.mpr (by decide)⟩

def nameOneAt : Name :=
  ⟨[49, 64], by decide,
    List.forall_mem_cons.mpr ⟨by decide, List.forall_mem_singleton.mpr (by decide)⟩,
    List.forall_mem_cons.mpr ⟨by decide, List.forall_mem_singleton.mpr (by decide)⟩⟩

def rootCalls : List (DirCall × Moments) :=
  [(.createfile true nameOneAt 5, noon), (.createfile false nameA 6, noon),
    (.createfile true nameA 7, noon), (.lookupfile nameOneAt, noon), (.unlink nameA, noon),
    (.readdir, noon), (.unlink nameOneAt, noon), (.readdir, noon)]

theorem directory_is_map_root :
    ∃ t, results (DirCall.onClient 1) YfsClient.start rootCalls =
      some ([.created .ok 0x80000005, .created .ok 6, .created .exist 0x80000007,
        .found .exist (some 0x80000005), .unlinked .noent,
        .listed (.ok [([49, 64], 0x80000005), ([97], 6)]), .unlinked .ok,
        .listed (.ok [([97], 6)])], t) := by
  have hroot : YfsClient.start.Keeps 1 ∅ := ⟨[], by decide +kernel, words_nil⟩
  obtain ⟨outs, t, d, hclient, hmap, -⟩ := directory_is_map (by decide) hroot rootCalls (by decide)
  refine ⟨t, ?_⟩
  rw [hclient]
  cases hmap
  rfl

end DistributedLab.Yfs
