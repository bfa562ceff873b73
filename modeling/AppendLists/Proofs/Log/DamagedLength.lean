import AppendLists.Proofs.Log.Boundaries
import AppendLists.Proofs.Log.Legible

namespace AppendLists

/-!
# Damaged lengths

Where an entry ends is told by its own length. If the length is what is damaged, the end it announces
decides: before the end of the file the damage counts as corruption and the file is left alone, but
from there on it counts as a torn tail, and every entry behind it is cut away with it.

* `relength`: a file with another length in one of its entries;
* `replayFrom_announced`: what a replay comes to at such a length;
* `LogStore.Attainable.damaged_length`: when opening the file fails, and what it costs otherwise;
* `LogStore.damaged_length_drops_entries`: a file in which two entries are lost.
-/

/-- The file with another length announced at `offset`. -/
def relength (file : Bytes) (offset length : Nat) : Bytes :=
  file.take offset ++ Bytes.ofNatLE 4 length ++ file.drop (offset + 4)

/-- Behind another length the file is as long as it was. -/
theorem relength_append (front : Bytes) {rest : Bytes} (h : 4 ≤ rest.length) (length : Nat) :
    relength (front ++ rest) front.length length
      = front ++ (Bytes.ofNatLE 4 length ++ rest.drop 4) ∧
      (Bytes.ofNatLE 4 length ++ rest.drop 4).length = rest.length := by
  constructor
  · rw [relength, List.take_left, List.drop_append, List.append_assoc]
    simp
  · rw [List.length_append, Bytes.length_ofNatLE, List.length_drop]
    omega

/-! ### At the damaged length -/

/-- What is read behind an announced length is an entry, too short, or damage of that length. -/
theorem readAnnounced_cases (limit length : Nat) (rest : Bytes) :
    (∃ e size, readAnnounced limit length rest = .entry e size) ∨
      (readAnnounced limit length rest = .short ∧ rest.length < length + 4) ∨
      ∃ cause, readAnnounced limit length rest = .damaged (length + entryOverhead) cause := by
  unfold readAnnounced
  -- the checks in turn: announced length, length of the file, checksum, record
  split
  · exact .inr (.inr ⟨_, rfl⟩)
  · split
    · case isTrue hshort => exact .inr (.inl ⟨rfl, hshort⟩)
    · simp only
      split
      · exact .inr (.inr ⟨_, rfl⟩)
      · split
        · exact .inl ⟨_, _, rfl⟩
        · exact .inr (.inr ⟨_, rfl⟩)

/-- Unless what it announces is a sound entry, a length ends the replay: with an error if it announces
an end before the end of the file, and with what was recovered so far otherwise. -/
theorem replayFrom_announced {limit length : Nat} (hlength : length < 0x100000000) {rest : Bytes}
    (hunsound : ∀ e size, readEntry limit (Bytes.ofNatLE 4 length ++ rest) ≠ .entry e size)
    (r : Recovered) :
    (length + 4 < rest.length ∧ ∃ left cause,
        replayFrom limit (Bytes.ofNatLE 4 length ++ rest) r
          = .error (.damagedEntry r.validLength left cause)) ∨
      (rest.length ≤ length + 4 ∧ replayFrom limit (Bytes.ofNatLE 4 length ++ rest) r = .ok r) := by
  have hread : readEntry limit (Bytes.ofNatLE 4 length ++ rest) = readAnnounced limit length rest :=
    readEntry_announced hlength rest
  have htotal : (Bytes.ofNatLE 4 length ++ rest).length = 4 + rest.length := by simp
  -- sound, torn or damaged: damage is an error only if the announced end is inside the file
  rcases readAnnounced_cases limit length rest with
    ⟨e, size, hentry⟩ | ⟨hshort, hlt⟩ | ⟨cause, hdamaged⟩
  · exact absurd (hread.trans hentry) (hunsound e size)
  · exact .inr ⟨Nat.le_of_lt hlt, replayFrom_torn (.inr (hread.trans hshort))⟩
  · rw [replayFrom_damaged (hread.trans hdamaged), htotal, entryOverhead]
    by_cases hinside : length + 4 < rest.length
    · rw [if_pos (by omega)]
      exact .inl ⟨hinside, _, _, rfl⟩
    · rw [if_neg (by omega)]
      exact .inr ⟨Nat.le_of_not_lt hinside, rfl⟩

/-- An entry takes at least its length and checksum. -/
theorem Logged.le_length_of_ne_nil {limit seq : Nat} {ms : List Mutation} {log : Bytes}
    (h : Logged limit seq ms log) (hne : log ≠ []) : entryOverhead ≤ log.length := by
  cases h with
  | nil => exact absurd rfl hne
  | cons hframe hrest =>
    obtain ⟨-, -, rfl⟩ := LogEntry.frame_eq_ok_iff.1 hframe
    rw [List.length_append, LogEntry.length_enclose]
    omega

namespace LogStore

variable {config : StoreConfig} {s : LogStore} {ms : List Mutation} {n : Nat}

/-- The file of a store, split at a place between two entries. -/
theorem Legible.split_file (h : s.Legible ms n) (hn : n < 0x10000000000000000) {i offset : Nat}
    (hoffset : (boundaries s.config.maxEntrySize (s.written ++ s.buffered))[i]? = some offset) :
    ∃ log rest done later, s.written ++ s.buffered = logHeader ++ log ++ rest ∧
      offset = (logHeader ++ log).length ∧ ms = done ++ later ∧
      Logged s.config.maxEntrySize 0 done log ∧
      Logged s.config.maxEntrySize done.length later rest := by
  have hcount := h.count
  obtain ⟨log, hfile, hlogged⟩ := h.logged
  rw [hfile] at hoffset ⊢
  -- there is a boundary before the first change and one behind each
  have hi : i ≤ ms.length := by
    obtain ⟨hlt, -⟩ := List.getElem?_eq_some_iff.1 hoffset
    rw [boundaries_header, List.length_cons, hlogged.length_entryEnds (by omega)] at hlt
    exact Nat.le_of_lt_succ hlt
  have hms : ms.take i ++ ms.drop i = ms := List.take_append_drop i ms
  have hlength : (ms.take i).length = i := List.length_take_of_le hi
  rw [← hms] at hlogged
  obtain ⟨log₁, log₂, rfl, h₁, h₂⟩ := hlogged.split
  rw [Nat.zero_add] at h₂
  refine ⟨log₁, log₂, _, _, (List.append_assoc ..).symm, ?_, hms.symm, h₁, h₂⟩
  have hend := h₁.getElem?_boundaries (by omega) log₂
  rw [List.append_assoc, hlength] at hend
  exact Option.some.inj (hoffset.symm.trans hend)

/-- **What a damaged length costs.** In the log of a store with any history the length of an entry is
replaced, by one that does not happen to announce a sound entry. Then the file fails to open, with an
error that names this entry, if and only if the end that the length announces lies before the end of
the file, and the file is left as it was. Otherwise the file opens as one that ends where the damaged
entry starts: this entry and all behind it are gone, and cut off the file. -/
theorem Attainable.damaged_length (hvalid : config.validate = .ok ()) (h : Attainable config n s)
    (hn : n < 0x10000000000000000) {i offset length : Nat}
    (hoffset : (boundaries config.maxEntrySize (s.written ++ s.buffered))[i]? = some offset)
    (hentry : offset < (s.written ++ s.buffered).length) (hlength : length < 0x100000000)
    (hunsound : ∀ e size, readEntry config.maxEntrySize
      ((relength (s.written ++ s.buffered) offset length).drop offset) ≠ .entry e size)
    {v : Volume} (hlog : v.log = some (relength (s.written ++ s.buffered) offset length))
    (hheld : v.held = false) :
    ((∃ left cause, openVolume config (some v)
          = (.error (.damagedEntry offset left cause), some { v with lockFile := true }))
        ↔ offset + length + entryOverhead < (s.written ++ s.buffered).length) ∧
      ((s.written ++ s.buffered).length ≤ offset + length + entryOverhead →
        ∃ s', openVolume config (some v) = (.ok s', some s'.volume) ∧
          openVolume config (some { v with log := some ((s.written ++ s.buffered).take offset) })
            = (.ok s', some s'.volume) ∧
          s'.volume.log = some ((s.written ++ s.buffered).take offset)) := by
  obtain ⟨ms, hlegible, rfl⟩ := h.legible hvalid hn
  have hcount := hlegible.count
  obtain ⟨memory, hall, -⟩ := hlegible.replays
  obtain ⟨log, rest, done, later, hfile, rfl, rfl, hdone, hlater⟩ := hlegible.split_file hn hoffset
  rw [List.length_append] at hcount
  rw [hfile] at hentry hunsound hlog ⊢
  -- the file is the same up to the damaged length and behind it
  have hrest : 4 ≤ rest.length := by
    have hwhole : entryOverhead ≤ rest.length := by
      apply hlater.le_length_of_ne_nil
      rintro rfl
      simp at hentry
    exact Nat.le_trans (by decide) hwhole
  obtain ⟨hrelength, htotal⟩ := relength_append (logHeader ++ log) hrest length
  rw [hrelength, List.drop_left] at hunsound
  rw [hrelength] at hlog
  obtain ⟨before, hbefore, -⟩ := Mutation.applyAll_of_append hall
  have hrecover := recover_append hdone (by omega) (Nat.le_refl _) hbefore
    (Bytes.ofNatLE 4 length ++ rest.drop 4)
  have hcut := recover_eq hdone (by omega) (Nat.le_refl s.config.maxEntrySize) hbefore
  rw [List.length_append, Bytes.length_ofNatLE] at htotal
  rw [List.take_left, @List.length_append _ (logHeader ++ log)]
  rcases replayFrom_announced hlength hunsound
      ⟨before, done.length, (logHeader ++ log).length⟩ with
    ⟨hinside, left, cause, hreplay⟩ | ⟨houtside, hreplay⟩
  · rw [hreplay] at hrecover
    have hopen := openVolume_of_recover_error hvalid hlog hheld hrecover
    refine ⟨⟨fun _ => ?_, fun _ => ⟨left, cause, hopen⟩⟩, fun hle => ?_⟩
    · simp only [entryOverhead]
      omega
    · simp only [entryOverhead] at hle
      omega
  · rw [hreplay] at hrecover
    have hopen := openVolume_of_recover hvalid hlog hheld hrecover
    have hopenCut := openVolume_of_recover (v := { v with log := some (logHeader ++ log) }) hvalid
      rfl hheld hcut
    rw [List.take_left] at hopen
    rw [List.take_length] at hopenCut
    refine ⟨⟨?_, ?_⟩, fun _ => ⟨_, hopen, hopenCut, rfl⟩⟩
    · rintro ⟨left, cause, herror⟩
      rw [hopen] at herror
      cases herror
    · intro hlt
      simp only [entryOverhead] at hlt
      omega

/-- The log of three changes, with the highest byte of the second length inverted. The length exceeds
every limit, and for that very reason it counts as a torn tail: the third change, which is intact, is
gone as well. -/
theorem damaged_length_drops_entries :
    let config : StoreConfig := ⟨"state", 2, true, 64⟩
    let changes : List Mutation := [.create "p" none, .put "p" [1] [10], .put "p" [2] [20]]
    let s : LogStore := changes.foldl (fun s m => (logThenApply m s).2)
      (onFile config logHeader MemoryStore.empty 0 false)
    let file := s.written ++ s.buffered
    let damaged := relength file 36 0xFF00000E
    config.validate = .ok () ∧ Attainable config 3 s ∧ file.length = 80 ∧
      boundaries config.maxEntrySize file = [5, 36, 58, 80] ∧
      (∀ e size, readEntry config.maxEntrySize (damaged.drop 36) ≠ .entry e size) ∧
      ∃ s', openVolume config (some ⟨some damaged, true, false, false⟩) = (.ok s', some s'.volume) ∧
        s'.memory.value? "p" [2] = none ∧ s'.volume.log = some (file.take 36) := by
  intro config changes s file damaged
  have hvalid : config.validate = .ok () := rfl
  have hs : Attainable config 3 s := ((Attainable.opened rfl).change _).change _ |>.change _
  have hlength : file.length = 80 := by decide +kernel
  have hends : boundaries config.maxEntrySize file = [5, 36, 58, 80] := by decide +kernel
  have hread : readEntry config.maxEntrySize (damaged.drop 36)
      = .damaged 0xFF000016 (.entryTooLong 0xFF00000E 64) := by decide +kernel
  have hunsound : ∀ e size, readEntry config.maxEntrySize (damaged.drop 36) ≠ .entry e size := by
    intro e size
    rw [hread]
    nofun
  have hsecond : (boundaries config.maxEntrySize file)[1]? = some 36 := by rw [hends]; rfl
  have hinside : 36 < file.length := by rw [hlength]; decide
  have houtside : file.length ≤ 36 + 0xFF00000E + entryOverhead := by rw [hlength]; decide
  have hcut : ((openVolume config (some ⟨some (file.take 36), true, false, false⟩)).1.toOption.map
      fun s' => s'.memory.value? "p" [2]) = some none := by decide +kernel
  obtain ⟨s', hopen, hopenCut, hlog⟩ := (hs.damaged_length hvalid (by decide) hsecond hinside
    (by decide) hunsound (v := ⟨some damaged, true, false, false⟩) rfl rfl).2 houtside
  rw [hopenCut] at hcut
  exact ⟨hvalid, hs, hlength, hends, hunsound, s', hopen, Option.some.inj hcut, hlog⟩

end LogStore

end AppendLists
