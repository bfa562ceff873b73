import AppendLists.Proofs.Log.Replay

namespace AppendLists

/-!
# Where entries end

A log can be cut anywhere: between two entries, or inside of one. Where its entries end is read off
the log itself, and what is left of an entry that was cut is never taken for an entry or for damage.

* `entryEnds`, `boundaries`: the places between the entries of a log;
* `Logged.split`, `Logged.unique`: the log of some of the changes;
* `Logged.getElem?_boundaries`: where the log of the first changes ends;
* `readAnnounced`, `readEntry_announced`: what is read behind an announced length;
* `readEntry_of_cut`: what is read of an entry that was cut;
* `Logged.cut`: what a beginning of a log consists of.
-/

/-- The places behind the entries at the start of `log`, which itself starts at `offset`. -/
def entryEnds (limit offset : Nat) (log : Bytes) : List Nat :=
  match h : readEntry limit log with
  | .entry _ size =>
    have := length_drop_lt h
    (offset + size) :: entryEnds limit (offset + size) (log.drop size)
  | _ => []
termination_by log.length
decreasing_by exact this

/-- The places in a log file between which its entries lie: behind its header, and behind each
entry. -/
def boundaries (limit : Nat) (file : Bytes) : List Nat :=
  logHeader.length :: entryEnds limit logHeader.length (file.drop logHeader.length)

/-! ### Boundaries from entry to entry -/

theorem entryEnds_nil (limit offset : Nat) : entryEnds limit offset [] = [] := by
  have hread := readEntry_nil limit
  rw [entryEnds]
  split <;> simp_all

/-- An entry ends behind its bytes, and the next one begins there. -/
theorem entryEnds_entry {limit : Nat} {bs log : Bytes} {e : LogEntry}
    (h : readEntry limit (bs ++ log) = .entry e bs.length) (offset : Nat) :
    entryEnds limit offset (bs ++ log)
      = (offset + bs.length) :: entryEnds limit (offset + bs.length) log := by
  rw [entryEnds]
  split <;> simp_all

/-- The first boundary is behind the header. -/
theorem boundaries_header (limit : Nat) (log : Bytes) :
    boundaries limit (logHeader ++ log)
      = logHeader.length :: entryEnds limit logHeader.length log := by
  rw [boundaries, List.drop_left]

namespace Logged

variable {limit seq : Nat} {ms ms' : List Mutation} {log log' : Bytes}

/-- The log of changes is that of the first ones and then that of the others. -/
theorem split (h : Logged limit seq (ms ++ ms') log) :
    ∃ log₁ log₂, log = log₁ ++ log₂ ∧ Logged limit seq ms log₁ ∧
      Logged limit (seq + ms.length) ms' log₂ := by
  induction ms generalizing seq log with
  | nil => exact ⟨[], log, rfl, .nil seq, h⟩
  | cons m ms ih =>
    cases h with
    | @cons _ _ _ bs log hframe hrest =>
      obtain ⟨log₁, log₂, rfl, h₁, h₂⟩ := ih hrest
      refine ⟨bs ++ log₁, log₂, (List.append_assoc ..).symm, .cons hframe h₁, ?_⟩
      rwa [List.length_cons, Nat.add_comm ms.length, ← Nat.add_assoc]

/-- The same changes make the same log. -/
theorem unique (h : Logged limit seq ms log) (h' : Logged limit seq ms log') : log = log' := by
  induction h generalizing log' with
  | nil => cases h'; rfl
  | cons hframe _ ih =>
    cases h' with
    | cons hframe' hrest' =>
      obtain rfl := Except.ok.inj (hframe.symm.trans hframe')
      rw [ih hrest']

/-- Behind the last of the changes there is a boundary, the one with their number. -/
theorem getElem?_entryEnds (h : Logged limit seq ms log)
    (hseq : seq + ms.length < 0x10000000000000000) (offset : Nat) (rest : Bytes) :
    (offset :: entryEnds limit offset (log ++ rest))[ms.length]? = some (offset + log.length) := by
  induction h generalizing offset with
  | nil => rfl
  | @cons seq m ms bs log hframe hrest ih =>
    rw [List.length_cons] at hseq
    have hread := readEntry_frame hframe (by show seq + 1 < _; omega) (Nat.le_refl limit)
      (log ++ rest)
    rw [List.append_assoc, entryEnds_entry hread, List.length_cons, List.getElem?_cons_succ,
      ih (by omega), List.length_append, Nat.add_assoc]

/-- Behind so many entries stands the boundary of that number. -/
theorem getElem?_boundaries (h : Logged limit 0 ms log) (hseq : ms.length < 0x10000000000000000)
    (rest : Bytes) :
    (boundaries limit (logHeader ++ log ++ rest))[ms.length]? = some (logHeader ++ log).length := by
  rw [List.append_assoc, boundaries_header, h.getElem?_entryEnds (by omega), List.length_append]

/-- There is one boundary behind each change. -/
theorem length_entryEnds (h : Logged limit seq ms log)
    (hseq : seq + ms.length < 0x10000000000000000) (offset : Nat) :
    (entryEnds limit offset log).length = ms.length := by
  induction h generalizing offset with
  | nil => simp [entryEnds_nil]
  | @cons seq m ms bs log hframe hrest ih =>
    rw [List.length_cons] at hseq
    have hread := readEntry_frame hframe (by show seq + 1 < _; omega) (Nat.le_refl limit) log
    rw [entryEnds_entry hread, List.length_cons, ih (by omega), List.length_cons]

/-- The boundaries lie within what was logged. -/
theorem le_of_mem_entryEnds (h : Logged limit seq ms log)
    (hseq : seq + ms.length < 0x10000000000000000) {offset place : Nat}
    (hplace : place ∈ entryEnds limit offset log) :
    offset < place ∧ place ≤ offset + log.length := by
  induction h generalizing offset with
  | nil => simp [entryEnds_nil] at hplace
  | @cons seq m ms bs log hframe hrest ih =>
    rw [List.length_cons] at hseq
    have hread := readEntry_frame hframe (by show seq + 1 < _; omega) (Nat.le_refl limit) log
    have hsize := size_of_readEntry hread
    rw [entryEnds_entry hread] at hplace
    rw [List.length_append]
    simp only [entryOverhead] at hsize
    rcases List.mem_cons.1 hplace with rfl | hplace
    · omega
    · have := ih (by omega) hplace
      omega

end Logged

/-! ### Entries cut off -/

/-- What is read behind an announced length. -/
def readAnnounced (limit length : Nat) (rest : Bytes) : EntryRead :=
  let size := length + entryOverhead
  if limit < length then .damaged size (.entryTooLong length limit)
  else if rest.length < length + 4 then .short
  else
    let record := rest.take length
    let expected := UInt32.ofNat (Bytes.toNatLE ((rest.drop length).take 4))
    if expected ≠ crc32 record then .damaged size (.checksumMismatch expected (crc32 record))
    else
      match LogEntry.format.read record with
      | some (e, _) => .entry e size
      | none => .damaged size .undecodableEntry

/-- What is read behind an announced length. -/
theorem readEntry_announced {limit length : Nat} (hlength : length < 0x100000000) (rest : Bytes) :
    readEntry limit (Bytes.ofNatLE 4 length ++ rest) = readAnnounced limit length rest := by
  have hlen : Bytes.toNatLE (Bytes.ofNatLE 4 length) = length := by
    rw [Bytes.toNatLE_ofNatLE, Nat.mod_eq_of_lt]
    exact hlength
  have hne : ¬ (Bytes.ofNatLE 4 length ++ rest).isEmpty = true := by simp [Bytes.ofNatLE]
  have htake : (Bytes.ofNatLE 4 length ++ rest).take 4 = Bytes.ofNatLE 4 length :=
    List.take_left' (by simp)
  have hdrop : (Bytes.ofNatLE 4 length ++ rest).drop 4 = rest := List.drop_left' (by simp)
  have hdrop' : (Bytes.ofNatLE 4 length ++ rest).drop (4 + length) = rest.drop length := by
    rw [← List.drop_drop, hdrop]
  have htotal : (Bytes.ofNatLE 4 length ++ rest).length < length + entryOverhead
      ↔ rest.length < length + 4 := by
    simp only [List.length_append, Bytes.length_ofNatLE, entryOverhead]
    omega
  rw [readEntry, if_neg hne, if_neg (by simp)]
  simp only [htake, hlen, hdrop, hdrop', htotal]
  rfl

/-- A part of an entry from its start on is no entry and no damage. -/
theorem readEntry_of_cut {limit : Nat} {e : LogEntry} {bs front : Bytes}
    (hframe : LogEntry.frame limit e = .ok bs) (hfront : front <+: bs)
    (hlt : front.length < bs.length) :
    readEntry limit front = .finished ∨ readEntry limit front = .short := by
  obtain ⟨hlimit, hlength, rfl⟩ := LogEntry.frame_eq_ok_iff.1 hframe
  by_cases hempty : front = []
  · exact .inl (by rw [hempty, readEntry_nil])
  · right
    by_cases hshort : front.length < 4
    · rw [readEntry, if_neg (by simpa using hempty), if_pos hshort]
    · -- the length is whole, and announces more than what is left
      have hprefix : Bytes.ofNatLE 4 (LogEntry.format.write e).length <+: front := by
        apply List.prefix_of_prefix_length_le _ hfront (by simp; omega)
        rw [LogEntry.enclose, List.append_assoc]
        exact List.prefix_append ..
      obtain ⟨rest, rfl⟩ := hprefix
      rw [LogEntry.length_enclose, List.length_append, Bytes.length_ofNatLE] at hlt
      simp only [entryOverhead] at hlt
      rw [readEntry_announced hlength, readAnnounced, if_neg (by omega), if_pos (by omega)]

/-- A beginning of a log is the log of some of its changes, as many as end in it, with no more than
a part of an entry behind it. -/
theorem Logged.cut {limit seq : Nat} {ms : List Mutation} {log : Bytes}
    (h : Logged limit seq ms log) (hseq : seq + ms.length < 0x10000000000000000) {front : Bytes}
    (hfront : front <+: log) (offset : Nat) :
    ∃ done rest kept torn, ms = done ++ rest ∧ front = kept ++ torn ∧ Logged limit seq done kept ∧
      (readEntry limit torn = .finished ∨ readEntry limit torn = .short) ∧
      (entryEnds limit offset log).countP (· ≤ offset + front.length) = done.length := by
  induction h generalizing front offset with
  | nil seq =>
    obtain rfl := List.prefix_nil.1 hfront
    exact ⟨[], [], [], [], rfl, rfl, .nil seq, .inl (readEntry_nil limit), by simp [entryEnds_nil]⟩
  | @cons seq m ms bs log hframe hrest ih =>
    rw [List.length_cons] at hseq
    have hread := readEntry_frame hframe (by show seq + 1 < _; omega) (Nat.le_refl limit) log
    by_cases hlt : front.length < bs.length
    · -- the cut is in the first entry, so no entry ends before it
      have hpart : front <+: bs :=
        List.prefix_of_prefix_length_le hfront (List.prefix_append ..) (Nat.le_of_lt hlt)
      refine ⟨[], m :: ms, [], front, rfl, rfl, .nil seq, readEntry_of_cut hframe hpart hlt, ?_⟩
      rw [List.length_nil, List.countP_eq_zero, entryEnds_entry hread]
      intro place hplace
      rcases List.mem_cons.1 hplace with rfl | hplace
      · simpa using hlt
      · have := hrest.le_of_mem_entryEnds (by omega) hplace
        simp only [decide_eq_true_eq]
        omega
    · obtain ⟨front', rfl⟩ :=
        List.prefix_of_prefix_length_le (List.prefix_append bs log) hfront (Nat.le_of_not_lt hlt)
      obtain ⟨done, rest, kept, torn, rfl, rfl, hkept, htorn, hcount⟩ :=
        ih (by omega) ((List.prefix_append_right_inj bs).1 hfront) (offset + bs.length)
      refine ⟨m :: done, rest, bs ++ kept, torn, rfl, by simp, .cons hframe hkept, htorn, ?_⟩
      rw [entryEnds_entry hread, List.countP_cons_of_pos (by simp), List.length_cons,
        ← hcount, @List.length_append _ bs, Nat.add_assoc]

end AppendLists
