import AppendLists.Migration
import AppendLists.Proofs.Codec.Fixed
import AppendLists.Proofs.ListFormat.Reading

namespace AppendLists

/-!
# Written lists migrated

Migrating a list along its written form comes to the same as decoding the list, converting its
elements and encoding the converted list, whatever the bytes and whatever the codecs, if only the new
codec leaves alone what is in the buffer: delimiters stand where the encoded list has them, a surplus
one in the input leaves no trace, and a failure leaves the buffer as it was.

* `MigrationObstacle`: what a migration stops at;
* `MigrationProgress`: what the buffer holds on the way, with one step (`MigrationProgress.next`),
  several (`MigrationProgress.reads`), and the end of it;
* `MigrationStops`, `migrationStops_of_migrateFrom`: a migration that comes to something has come to
  the end of input or to an obstacle;
* `migrateRun_of_end`, `migrateRun_of_obstacle`, `Codec.Ends.exists_migrateRun`: a whole list;
* `migrateList_outcome`: when a migration succeeds, with which bytes, and otherwise which error it is;
* `migrateList_not_for_all_codecs`: codecs for which it is not so;
* `Migrates`, `MigrationFailure`, `Codec.Conforming.migrateList_encodeList`,
  `migrateList_encodeList_of_failure`: a list that a conforming codec wrote, element by element.
-/

variable {α β : Type} {prior : Codec α} {new : Codec β} {convert : ElementMigration α β}

/-! ### One step -/

section Step

variable {count : Nat} {c c' : Cursor} {out out' : Bytes}

/-- At the end of input the migration is done. -/
theorem migrateFrom_of_end (hend : c.rest = []) :
    prior.migrateFrom new convert count c out = some (.ok count, out) := by
  rw [Codec.migrateFrom, decodeNext_end hend]

/-- An element that cannot be read ends it. -/
theorem migrateFrom_of_next_error {e : StateError} (hnext : decodeNext prior c = .error e) :
    prior.migrateFrom new convert count c out
      = some (.error (.migration (.decoding count c.position prior.descriptor) e), out) := by
  rw [Codec.migrateFrom, hnext]

variable {x : α} (hnext : decodeNext prior c = .ok (some (x, c')))
include hnext

/-- So does one that cannot be converted. -/
theorem migrateFrom_of_convert_error {e : StateError} (hx : convert x = .error e) :
    prior.migrateFrom new convert count c out
      = some (.error (.migration (.converting count prior.descriptor new.descriptor) e), out) := by
  rw [Codec.migrateFrom, hnext]
  simp only [hx]

/-- What a codec that fails leaves in the buffer is left there. -/
theorem migrateFrom_of_write_error {y : β} (hx : convert x = .ok y) {e : StateError}
    (hwrite : new.write y out = (.error e, out')) :
    prior.migrateFrom new convert count c out
      = some (.error (.migration (.encoding count new.descriptor) e), out') := by
  rw [Codec.migrateFrom, hnext]
  simp only [hx, hwrite]

/-- A delimiter is put behind an element if there is more input. -/
theorem migrateFrom_of_write {y : β} (hx : convert x = .ok y)
    (hwrite : new.write y out = (.ok (), out')) :
    prior.migrateFrom new convert count c out
      = prior.migrateFrom new convert (count + 1) c'
          (if c'.isEmpty then out' else out' ++ [delimiter]) := by
  rw [Codec.migrateFrom, hnext]
  simp only [hx, hwrite]

end Step

/-! ### Obstacles -/

/-- The error at which a migration stops, when elements were migrated to `ys` and the cursor stands
behind them. -/
inductive MigrationObstacle (prior : Codec α) (new : Codec β) (convert : ElementMigration α β)
    (ys : List β) (c : Cursor) : StateError → Prop where
  /-- No element can be read. -/
  | decoding {cause : StateError} (hnext : decodeNext prior c = .error cause) :
      MigrationObstacle prior new convert ys c
        (.migration (.decoding ys.length c.position prior.descriptor) cause)
  /-- The element that is read cannot be converted. -/
  | converting {x : α} {c' : Cursor} {cause : StateError}
      (hnext : decodeNext prior c = .ok (some (x, c'))) (hx : convert x = .error cause) :
      MigrationObstacle prior new convert ys c
        (.migration (.converting ys.length prior.descriptor new.descriptor) cause)
  /-- What it is converted to cannot be written behind the others. -/
  | encoding {x : α} {c' : Cursor} {y : β} {cause : StateError}
      (hnext : decodeNext prior c = .ok (some (x, c'))) (hx : convert x = .ok y)
      (hwrite : encodeList new (ys ++ [y]) = .error cause) :
      MigrationObstacle prior new convert ys c
        (.migration (.encoding ys.length new.descriptor) cause)

/-- The error says where the migration stopped and wraps what was the cause. -/
theorem MigrationObstacle.is_migration {ys : List β} {c : Cursor} {e : StateError}
    (h : MigrationObstacle prior new convert ys c e) : ∃ stage cause, e = .migration stage cause := by
  cases h <;> exact ⟨_, _, rfl⟩

/-! ### What is in the buffer -/

/-- Behind `out` the buffer holds the written form of the elements migrated so far, and the delimiter
as soon as another element follows. -/
def MigrationProgress (new : Codec β) (out : Bytes) (ys : List β) (c : Cursor) (buffer : Bytes) :
    Prop :=
  ∃ written, encodeList new ys = .ok written ∧
    buffer = out ++ if ys = [] ∨ c.rest = [] then written else written ++ [delimiter]

namespace MigrationProgress

variable {out buffer : Bytes} {ys : List β} {c c' : Cursor}

/-- In front of the first element the buffer holds what it did. -/
theorem start (new : Codec β) (out : Bytes) (c : Cursor) : MigrationProgress new out [] c out :=
  ⟨[], rfl, by simp⟩

/-- Where another element is read, the buffer is what it is written to. -/
theorem put_eq (hspares : new.Spares out) (h : MigrationProgress new out ys c buffer)
    (hmore : c.rest ≠ []) (y : β) :
    new.put y buffer = (encodeList new (ys ++ [y])).map (out ++ ·) := by
  obtain ⟨written, hwritten, rfl⟩ := h
  rw [encodeList_concat, hwritten, hspares.put_eq]
  simp only [hmore, or_false, Except.bind]

/-- An element that can be converted and written is written behind the others, and a delimiter behind
it if input is left. -/
theorem next (hspares : new.Spares out) (h : MigrationProgress new out ys c buffer)
    (hmore : c.rest ≠ []) {y : β} {written : Bytes}
    (hwritten : encodeList new (ys ++ [y]) = .ok written) (c' : Cursor) :
    new.write y buffer = (.ok (), out ++ written) ∧
      MigrationProgress new out (ys ++ [y]) c'
        (if c'.isEmpty then out ++ written else out ++ written ++ [delimiter]) := by
  have hput := h.put_eq hspares hmore y
  rw [hwritten] at hput
  refine ⟨Codec.put_eq_ok_iff.1 hput, written, hwritten, ?_⟩
  by_cases hend : c'.rest = []
  · rw [if_pos (Cursor.isEmpty_iff.2 hend), if_pos (.inr hend)]
  · rw [if_neg (mt Cursor.isEmpty_iff.1 hend), if_neg (by simp [hend]), List.append_assoc]

/-- Several elements. -/
theorem reads (hspares : new.Spares out) {d : Cursor} {xs : List α} (hreads : prior.Reads c xs d)
    (h : MigrationProgress new out ys c buffer) {zs : List β} (hzs : xs.mapM convert = .ok zs)
    {written : Bytes} (hwritten : encodeList new (ys ++ zs) = .ok written) :
    ∃ buffer', MigrationProgress new out (ys ++ zs) d buffer' ∧
      prior.migrateFrom new convert ys.length c buffer
        = prior.migrateFrom new convert (ys ++ zs).length d buffer' := by
  induction hreads generalizing ys zs buffer with
  | here c =>
    obtain rfl : [] = zs := Except.ok.inj hzs
    rw [List.append_nil]
    exact ⟨buffer, h, rfl⟩
  | @next c c' d x xs hnext _ ih =>
    obtain ⟨y, zs, hy, hzs', rfl⟩ := mapM_cons_eq_ok_iff.1 hzs
    rw [List.append_cons ys y zs] at hwritten ⊢
    obtain ⟨front, hfront⟩ := exists_encodeList_front hwritten
    obtain ⟨hwrite, h'⟩ := h.next hspares (rest_ne_nil_of_decodeNext hnext) hfront c'
    obtain ⟨buffer', hend, hsteps⟩ := ih h' hzs' hwritten
    rw [List.length_append, List.length_singleton] at hsteps
    exact ⟨buffer', hend, (migrateFrom_of_write hnext hy hwrite).trans hsteps⟩

/-- At the end of input the buffer holds the written form of the elements. -/
theorem migrateFrom_end (h : MigrationProgress new out ys c buffer) (hend : c.rest = [])
    {written : Bytes} (hwritten : encodeList new ys = .ok written) :
    prior.migrateFrom new convert ys.length c buffer = some (.ok ys.length, out ++ written) := by
  obtain ⟨written', hwritten', rfl⟩ := h
  obtain rfl := Except.ok.inj (hwritten'.symm.trans hwritten)
  rw [migrateFrom_of_end hend, if_pos (.inr hend)]

/-- An obstacle is the error, and what the buffer held at the beginning is still in front of it. -/
theorem migrateFrom_obstacle (hspares : new.Spares out) (h : MigrationProgress new out ys c buffer)
    {e : StateError} (he : MigrationObstacle prior new convert ys c e) :
    ∃ left, prior.migrateFrom new convert ys.length c buffer = some (.error e, out ++ left) := by
  have hprefix : ∃ left, buffer = out ++ left := h.imp' _ fun _ => And.right
  cases he with
  | decoding hnext =>
    obtain ⟨left, rfl⟩ := hprefix
    exact ⟨left, migrateFrom_of_next_error hnext⟩
  | converting hnext hx =>
    obtain ⟨left, rfl⟩ := hprefix
    exact ⟨left, migrateFrom_of_convert_error hnext hx⟩
  | @encoding x c' y cause hnext hx hwrite =>
    have hput := h.put_eq hspares (rest_ne_nil_of_decodeNext hnext) y
    rw [hwrite] at hput
    obtain ⟨left, hleft⟩ := Codec.exists_write_of_put_error hput
    -- what a codec leaves behind is cut off with the rest, if it did not take more than that away
    obtain ⟨behind, rfl⟩ := hprefix
    have hkeeps := hspares.keeps y behind
    rw [hleft] at hkeeps
    obtain ⟨left', rfl⟩ := hkeeps
    exact ⟨left', migrateFrom_of_write_error hnext hx hleft⟩

end MigrationProgress

/-- Behind elements that are converted and written there is the end of input, or an obstacle. -/
def MigrationStops (prior : Codec α) (new : Codec β) (convert : ElementMigration α β) (ys : List β)
    (c : Cursor) : Prop :=
  ∃ xs d zs written, prior.Reads c xs d ∧ xs.mapM convert = .ok zs ∧
    encodeList new (ys ++ zs) = .ok written ∧
    (d.rest = [] ∨ ∃ e, MigrationObstacle prior new convert (ys ++ zs) d e)

namespace MigrationStops

variable {ys : List β} {c c' : Cursor}

/-- A migration may stop where it is. -/
theorem here {written : Bytes} (hwritten : encodeList new ys = .ok written)
    (h : c.rest = [] ∨ ∃ e, MigrationObstacle prior new convert ys c e) :
    MigrationStops prior new convert ys c :=
  ⟨[], c, [], written, .here c, rfl, by rwa [List.append_nil], by rwa [List.append_nil]⟩

/-- It stops where it stops behind the next element. -/
theorem next {x : α} (hnext : decodeNext prior c = .ok (some (x, c'))) {y : β}
    (hy : convert x = .ok y) (h : MigrationStops prior new convert (ys ++ [y]) c') :
    MigrationStops prior new convert ys c := by
  obtain ⟨xs, d, zs, written, hreads, hzs, hwritten, hstop⟩ := h
  rw [← List.append_cons] at hwritten hstop
  exact ⟨x :: xs, d, y :: zs, written, .next hnext hreads,
    mapM_cons_eq_ok_iff.2 ⟨y, zs, hy, hzs, rfl⟩, hwritten, hstop⟩

end MigrationStops

/-- A migration that comes to something has stopped. -/
theorem migrationStops_of_migrateFrom {out : Bytes} (hspares : new.Spares out) {c : Cursor}
    {buffer : Bytes} {count : Nat} {r : Except StateError Nat × Bytes}
    (hrun : prior.migrateFrom new convert count c buffer = some r) :
    ∀ ys, count = ys.length → MigrationProgress new out ys c buffer →
      MigrationStops prior new convert ys c := by
  -- what is proved of a run is what one turn makes of it, given it of the run behind that turn
  refine Codec.migrateFrom.partial_correctness prior new convert
    (fun count c buffer _ => ∀ ys, count = ys.length → MigrationProgress new out ys c buffer →
      MigrationStops prior new convert ys c) ?_ count c buffer r hrun
  intro rest hrest count c buffer r hrun ys hcount h
  obtain ⟨written, hwritten, -⟩ := id h
  rcases hnext : decodeNext prior c with e | _ | ⟨x, c'⟩
  · exact .here hwritten (.inr ⟨_, .decoding hnext⟩)
  · exact .here hwritten (.inl (decodeNext_eq_none hnext))
  · cases hy : convert x with
    | error cause => exact .here hwritten (.inr ⟨_, .converting hnext hy⟩)
    | ok y =>
      cases hlonger : encodeList new (ys ++ [y]) with
      | error cause => exact .here hwritten (.inr ⟨_, .encoding hnext hy hlonger⟩)
      | ok longer =>
        obtain ⟨hwrite, h'⟩ := h.next hspares (rest_ne_nil_of_decodeNext hnext) hlonger c'
        simp only [hnext, hy, hwrite] at hrun
        refine .next hnext hy (hrest _ _ _ _ hrun (ys ++ [y]) ?_ h')
        rw [hcount, List.length_append, List.length_singleton]

/-- Where reading ends, so does migrating. -/
theorem Codec.Ends.exists_migrateFrom {c : Cursor} (h : prior.Ends c) (new : Codec β)
    (convert : ElementMigration α β) (count : Nat) (out : Bytes) :
    ∃ r, prior.migrateFrom new convert count c out = some r := by
  induction h generalizing count out with
  | failed hnext => exact ⟨_, migrateFrom_of_next_error hnext⟩
  | ended hnext => exact ⟨_, migrateFrom_of_end (decodeNext_eq_none hnext)⟩
  | @next c c' x hnext _ ih =>
    cases hy : convert x with
    | error cause => exact ⟨_, migrateFrom_of_convert_error hnext hy⟩
    | ok y =>
      rcases hwrite : new.write y out with ⟨e | _, out'⟩
      · exact ⟨_, migrateFrom_of_write_error hnext hy hwrite⟩
      · rw [migrateFrom_of_write hnext hy hwrite]
        exact ih (count + 1) _

/-! ### Whole lists -/

section WholeLists

variable {input out : Bytes}

/-- The elements of a list that is read to its end are migrated behind what the buffer holds. -/
theorem migrateRun_of_end (hspares : new.Spares out) {xs : List α} {d : Cursor}
    (hreads : prior.Reads (Cursor.ofBytes input) xs d) (hend : d.rest = []) {ys : List β}
    (hys : xs.mapM convert = .ok ys) {written : Bytes} (hwritten : encodeList new ys = .ok written) :
    migrateRun prior new convert input out = some (.ok xs.length, out ++ written) := by
  obtain ⟨buffer, hbuffer, hrun⟩ :=
    (MigrationProgress.start new out _).reads hspares hreads hys hwritten
  rw [List.nil_append] at hbuffer hrun
  rw [hbuffer.migrateFrom_end hend hwritten] at hrun
  rw [migrateRun, ← length_of_mapM_eq_ok hys]
  exact congrArg (Option.map (cutBack out)) hrun

/-- Of what was written in front of an obstacle nothing stays in the buffer. -/
theorem migrateRun_of_obstacle (hspares : new.Spares out) {xs : List α} {d : Cursor}
    (hreads : prior.Reads (Cursor.ofBytes input) xs d) {ys : List β}
    (hys : xs.mapM convert = .ok ys) {written : Bytes} (hwritten : encodeList new ys = .ok written)
    {e : StateError} (he : MigrationObstacle prior new convert ys d e) :
    migrateRun prior new convert input out = some (.error e, out) := by
  obtain ⟨buffer, hbuffer, hrun⟩ :=
    (MigrationProgress.start new out _).reads hspares hreads hys hwritten
  rw [List.nil_append] at hbuffer hrun
  obtain ⟨left, hleft⟩ := hbuffer.migrateFrom_obstacle hspares he
  rw [hleft] at hrun
  have hcut : cutBack out (.error e, out ++ left) = (.error e, out) := by
    rw [cutBack, List.take_left]
  rw [migrateRun, ← hcut]
  exact congrArg (Option.map (cutBack out)) hrun

/-- A migration that ends has stopped. -/
theorem migrationStops_of_migrateRun (hspares : new.Spares out)
    {r : Except StateError Nat × Bytes} (h : migrateRun prior new convert input out = some r) :
    MigrationStops prior new convert [] (Cursor.ofBytes input) := by
  obtain ⟨r', hrun, -⟩ := Option.map_eq_some_iff.1 h
  exact migrationStops_of_migrateFrom hspares hrun [] rfl (.start new out _)

/-- A migration succeeds if the list is read, converted and written, and only then. -/
theorem migrateRun_eq_ok_iff (hspares : new.Spares out) {out' : Bytes} {n : Nat} :
    migrateRun prior new convert input out = some (.ok n, out') ↔
      ∃ xs ys migrated, prior.decodeFrom (Cursor.ofBytes input) = some (.ok xs) ∧
        xs.mapM convert = .ok ys ∧ encodeList new ys = .ok migrated ∧ n = xs.length ∧
        out' = out ++ migrated := by
  constructor
  · intro h
    obtain ⟨xs, d, ys, migrated, hreads, hys, hmigrated, hend | ⟨e, he⟩⟩ :=
      migrationStops_of_migrateRun hspares h
    · have hrun := migrateRun_of_end hspares hreads hend hys hmigrated
      obtain ⟨hn, rfl⟩ := Prod.mk.inj (Option.some.inj (hrun.symm.trans h))
      exact ⟨xs, ys, migrated, decodeFrom_eq_ok_iff.2 ⟨d, hreads, hend⟩, hys, hmigrated,
        (Except.ok.inj hn).symm, rfl⟩
    · cases (migrateRun_of_obstacle hspares hreads hys hmigrated he).symm.trans h
  · rintro ⟨xs, ys, migrated, hxs, hys, hmigrated, rfl, rfl⟩
    obtain ⟨d, hreads, hend⟩ := decodeFrom_eq_ok_iff.1 hxs
    exact migrateRun_of_end hspares hreads hend hys hmigrated

/-- It fails if some element is an obstacle behind those in front of it, and only then. -/
theorem migrateRun_eq_error_iff (hspares : new.Spares out) {out' : Bytes} {e : StateError} :
    migrateRun prior new convert input out = some (.error e, out') ↔
      out' = out ∧ ∃ xs d ys migrated, prior.Reads (Cursor.ofBytes input) xs d ∧
        xs.mapM convert = .ok ys ∧ encodeList new ys = .ok migrated ∧
        MigrationObstacle prior new convert ys d e := by
  constructor
  · intro h
    obtain ⟨xs, d, ys, migrated, hreads, hys, hmigrated, hend | ⟨e', he⟩⟩ :=
      migrationStops_of_migrateRun hspares h
    · cases (migrateRun_of_end hspares hreads hend hys hmigrated).symm.trans h
    · have hrun := migrateRun_of_obstacle hspares hreads hys hmigrated he
      obtain ⟨he', rfl⟩ := Prod.mk.inj (Option.some.inj (hrun.symm.trans h))
      obtain rfl := Except.error.inj he'
      exact ⟨rfl, xs, d, ys, migrated, hreads, hys, hmigrated, he⟩
  · rintro ⟨rfl, xs, d, ys, migrated, hreads, hys, hmigrated, he⟩
    exact migrateRun_of_obstacle hspares hreads hys hmigrated he

/-- A migration ends where reading does. -/
theorem Codec.Ends.exists_migrateRun (h : prior.Ends (Cursor.ofBytes input)) (new : Codec β)
    (convert : ElementMigration α β) (out : Bytes) :
    ∃ r, migrateRun prior new convert input out = some r := by
  obtain ⟨r, hr⟩ := h.exists_migrateFrom new convert 0 out
  exact ⟨cutBack out r, by rw [migrateRun, hr, Option.map_some]⟩

end WholeLists

/-- **Migrating a list is decoding, converting and encoding it.** For all codecs, whatever the input
is, and as long as the new codec leaves alone what the buffer holds: a migration succeeds if the list
can be read, converted and written, and only then, and puts the written list behind what the buffer
holds. Otherwise, if it returns, the error wraps that of the first element which cannot be read,
converted or written behind the others, and the buffer is as it was. It does not return only where
reading the list does not, which does not happen with a codec that does not go back. -/
theorem migrateList_outcome (prior : Codec α) (new : Codec β) (convert : ElementMigration α β)
    (input out : Bytes) (hspares : new.Spares out) :
    let reading := prior.decodeFrom (Cursor.ofBytes input)
    let run := migrateRun prior new convert input out
    (∀ n out', run = some (.ok n, out') ↔
      ∃ xs ys migrated, reading = some (.ok xs) ∧ xs.mapM convert = .ok ys ∧
        encodeList new ys = .ok migrated ∧ n = xs.length ∧ out' = out ++ migrated) ∧
    (∀ e out', run = some (.error e, out') ↔
      out' = out ∧ ∃ xs d ys migrated, prior.Reads (Cursor.ofBytes input) xs d ∧
        xs.mapM convert = .ok ys ∧ encodeList new ys = .ok migrated ∧
        MigrationObstacle prior new convert ys d e) ∧
    (∀ e out', run = some (.error e, out') → ∃ stage cause, e = .migration stage cause) ∧
    (run = none → reading = none) ∧
    (∀ r, run = some r → migrateList prior new convert input out = r) ∧
    (prior.Forward → reading = some (decodeList prior (some input)) ∧
      run = some (migrateList prior new convert input out)) := by
  refine ⟨fun n out' => migrateRun_eq_ok_iff hspares, fun e out' => migrateRun_eq_error_iff hspares,
    fun e out' herror => ?_, fun hnone => ?_, fun r => Option.await_eq, fun hforward => ⟨?_, ?_⟩⟩
  · obtain ⟨-, _, _, _, _, -, -, -, he⟩ := (migrateRun_eq_error_iff hspares).1 herror
    exact he.is_migration
  · -- -- a migration that does not return reads a list that does not end
    refine decodeFrom_eq_none_iff.2 fun hends => ?_
    obtain ⟨r, hr⟩ := hends.exists_migrateRun new convert out
    rw [hnone] at hr
    cases hr
  · exact hforward.decodeList_eq_iff.1 rfl
  · obtain ⟨r, hr⟩ := (hforward.ends (Cursor.ofBytes input)).exists_migrateRun new convert out
    rw [migrateList, hr, Option.await_some]

/-- A number with a delimiter behind it is stamped behind what the buffer holds, and the delimiter is
not migrated. -/
theorem migrateList_drops_surplus_delimiter :
    let number : Bytes := [0, 0, 0, 0, 0, 0, 0, 5]
    let time : Bytes := [0, 0, 0, 0, 0, 0, 0, delimiter]
    let out : Bytes := [9]
    Codec.u64.stamped.Spares out ∧
      migrateList Codec.u64 Codec.u64.stamped (.enableExpiry 44) (number ++ [delimiter]) out
        = (.ok 1, out ++ (time ++ number)) := by
  intro number time out
  have hspares : Codec.u64.stamped.Spares out :=
    Codec.writesForm_u64.appending.stamped.spares Codec.writesForm_u64.keeping.stamped out
  obtain ⟨hok, -, -, -, hreturned, -⟩ := migrateList_outcome Codec.u64 Codec.u64.stamped
    (.enableExpiry 44) (number ++ [delimiter]) out hspares
  have hread : Codec.u64.decodeFrom (Cursor.ofBytes (number ++ [delimiter])) = some (.ok [5]) := by
    cbv
  exact ⟨hspares, hreturned _ ((hok _ _).2 ⟨[5], _, _, hread, rfl, rfl, rfl, rfl⟩)⟩

/-! ### Codecs that do not leave the buffer alone -/

/-- Byte strings of which the number of bytes in front of them is written. -/
def Codec.offsets : Codec Bytes where
  name := "offsets"
  version := 1
  write _ out := (.ok (), out ++ [UInt8.ofNat out.length])
  decode := Codec.unframe

/-- Byte strings that are not written, and the buffer is emptied. -/
def Codec.discarding : Codec Bytes where
  name := "discarding"
  version := 1
  write _ _ := (.error .serialization, [])
  decode := Codec.unframe

/-- Where every element migrates, migrating ends only if reading does. -/
theorem ends_of_migrateFrom (hconvert : ∀ x, ∃ y, convert x = .ok y)
    (hwrites : ∀ y out, ∃ out', new.write y out = (.ok (), out')) {count : Nat} {c : Cursor}
    {out : Bytes} {r : Except StateError Nat × Bytes}
    (h : prior.migrateFrom new convert count c out = some r) : prior.Ends c := by
  refine Codec.migrateFrom.partial_correctness prior new convert (fun _ c _ _ => prior.Ends c) ?_ count c
    out r h
  intro rest hrest count c out r hrun
  rcases hnext : decodeNext prior c with e | _ | ⟨x, c'⟩
  · exact .failed hnext
  · exact .ended hnext
  · obtain ⟨y, hy⟩ := hconvert x
    obtain ⟨out', hwrite⟩ := hwrites y out
    simp only [hnext, hy, hwrite] at hrun
    exact .next hnext (hrest _ _ _ _ hrun)

/-- **Not with all codecs.** A migration never returns if the prior codec leads back in the input; a new
codec that looks at the buffer does not write what it writes of the list alone; and one that empties
the buffer before it fails takes away what stood there. -/
theorem migrateList_not_for_all_codecs :
    (Codec.rereading.decodeFrom (Cursor.ofBytes [0x61, delimiter, 0x62]) = none ∧
      migrateRun Codec.rereading Codec.rereading .ok [0x61, delimiter, 0x62] [] = none) ∧
    (Codec.bytes.decodeFrom (Cursor.ofBytes [0, 0, 0, 0]) = some (.ok [[]]) ∧
      encodeList Codec.offsets [[]] = .ok [0] ∧
      migrateRun Codec.bytes Codec.offsets .ok [0, 0, 0, 0] [7] = some (.ok 1, [7, 1])) ∧
    ∃ e, migrateRun Codec.bytes Codec.discarding .ok [0, 0, 0, 0] [7] = some (.error e, []) := by
  have hread : Codec.rereading.decodeFrom (Cursor.ofBytes [0x61, delimiter, 0x62]) = none :=
    decodeFrom_eq_none_iff.2 Codec.not_ends_rereading
  refine ⟨⟨hread, ?_⟩, ⟨by cbv, rfl, by cbv⟩, _, by cbv⟩
  rw [migrateRun, Option.map_eq_none_iff]
  cases hrun : Codec.rereading.migrateFrom Codec.rereading .ok 0
      (Cursor.ofBytes [0x61, delimiter, 0x62]) [] with
  | none => rfl
  | some r =>
    exact absurd (ends_of_migrateFrom (fun x => ⟨x, rfl⟩) (fun _ out => ⟨out ++ [0x61], rfl⟩) hrun)
      Codec.not_ends_rereading

/-! ### Lists that a conforming codec wrote -/

/-- Whether an element is converted to one that the new codec writes. -/
def Migrates (new : Codec β) (convert : ElementMigration α β) (x : α) : Prop :=
  ∃ y, convert x = .ok y ∧ new.Writes y

/-- The error of an element that is not converted to one that the new codec writes, when `count`
elements stand before it. -/
inductive MigrationFailure (prior : Codec α) (new : Codec β) (convert : ElementMigration α β)
    (count : Nat) (x : α) : StateError → Prop where
  /-- It cannot be converted. -/
  | converting {cause : StateError} (h : convert x = .error cause) :
      MigrationFailure prior new convert count x
        (.migration (.converting count prior.descriptor new.descriptor) cause)
  /-- It cannot be written. -/
  | encoding {y : β} {cause : StateError} (h : convert x = .ok y)
      (hencode : new.encode y = .error cause) :
      MigrationFailure prior new convert count x
        (.migration (.encoding count new.descriptor) cause)

section Converted

variable (hnew : new.Appending)
include hnew

/-- The converted list of a list of elements that migrate, and its written form. -/
theorem exists_converted {xs : List α} (h : ∀ x ∈ xs, Migrates new convert x) :
    ∃ ys value, xs.mapM convert = .ok ys ∧ encodeList new ys = .ok value := by
  obtain ⟨ys, hys⟩ := mapM_isOk_iff.2 fun x hx => (h x hx).imp fun y hy => hy.1
  have hwrites : ∀ y ∈ ys, new.Writes y := by
    intro y hy
    obtain ⟨x, hx, hconvert⟩ := exists_of_mem_mapM_eq_ok hys hy
    obtain ⟨y', hy', hwrites⟩ := h x hx
    obtain rfl := Except.ok.inj (hconvert.symm.trans hy')
    exact hwrites
  obtain ⟨value, hvalue⟩ := hnew.encodeList_isOk_iff.2 hwrites
  exact ⟨ys, value, hys, hvalue⟩

/-- The elements of a list that is converted and written migrate. -/
theorem migrates_of_converted {xs : List α} {ys : List β} (hys : xs.mapM convert = .ok ys)
    {value : Bytes} (hvalue : encodeList new ys = .ok value) :
    ∀ x ∈ xs, Migrates new convert x := by
  intro x hx
  obtain ⟨y, hy, hconvert⟩ := exists_mem_of_mapM_eq_ok hys hx
  exact ⟨y, hconvert, hnew.encodeList_isOk_iff.1 ⟨value, hvalue⟩ y hy⟩

end Converted

namespace Codec.Conforming

variable (hc : prior.Conforming)
include hc

/-- A written list of elements that migrate becomes the written form of the converted list. -/
theorem migrateList_encodeList {xs : List α} {bs : Bytes} (h : encodeList prior xs = .ok bs)
    {ys : List β} (hys : xs.mapM convert = .ok ys) {migrated : Bytes}
    (hmigrated : encodeList new ys = .ok migrated) :
    migrateList prior new convert bs [] = (.ok xs.length, migrated) := by
  have hread : prior.decodeFrom (Cursor.ofBytes bs) = some (.ok xs) := hc.decodeFrom_encodeList h rfl
  obtain ⟨d, hreads, hend⟩ := decodeFrom_eq_ok_iff.1 hread
  exact Option.await_eq (migrateRun_of_end (spares_nil new) hreads hend hys hmigrated)

/-- The first element that does not migrate is the error. -/
theorem migrateList_encodeList_of_failure (hnew : new.Appending) {xs : List α} {bs : Bytes}
    (h : encodeList prior xs = .ok bs) (hfail : ¬ ∀ x ∈ xs, Migrates new convert x) :
    ∃ done x behind e, xs = done ++ x :: behind ∧
      MigrationFailure prior new convert done.length x e ∧
      migrateList prior new convert bs [] = (.error e, []) := by
  have hread : prior.decodeFrom (Cursor.ofBytes bs) = some (.ok xs) := hc.decodeFrom_encodeList h rfl
  obtain ⟨⟨e | n, out⟩, hrun⟩ := (ends_of_decodeFrom hread).exists_migrateRun new convert []
  · obtain ⟨rfl, done, d, ys, migrated, hreads, hys, hmigrated, he⟩ :=
      (migrateRun_eq_error_iff (spares_nil new)).1 hrun
    have hlist : migrateList prior new convert bs [] = (.error e, []) := Option.await_eq hrun
    have hlength : ys.length = done.length := length_of_mapM_eq_ok hys
    cases he with
    | decoding hnext =>
      -- a written list is read to its end
      rw [hreads.decodeFrom_eq, decodeFrom_of_next_error hnext] at hread
      cases hread
    | @converting x c' cause hnext hx =>
      obtain ⟨behind, rfl⟩ := hreads.exists_behind hnext hread
      exact ⟨done, x, behind, _, rfl, hlength ▸ .converting hx, hlist⟩
    | @encoding x c' y cause hnext hx hwrite =>
      obtain ⟨behind, rfl⟩ := hreads.exists_behind hnext hread
      have hencode := hnew.encode_of_concat hmigrated hwrite
      exact ⟨done, x, behind, _, rfl, hlength ▸ .encoding hx hencode, hlist⟩
  · -- a migration that succeeds has converted and written every element
    obtain ⟨xs', ys, migrated, hread', hys, hmigrated, -⟩ :=
      (migrateRun_eq_ok_iff (spares_nil new)).1 hrun
    obtain rfl := Except.ok.inj (Option.some.inj (hread.symm.trans hread'))
    exact absurd (migrates_of_converted hnew hys hmigrated) hfail

end Codec.Conforming

end AppendLists
