import WrCalibration.Capture.LeCroyRoundTrip

/-!
# The dictionary of a LeCroy preamble

A preamble is a table of texts by key, and the dictionary is that table
converted entry by entry (`Values.preamble`). The loop computes just this
(`foldlM_preambleLine`), so the order of its lines does not show. The
display range in time goes through `_timebase`, of which the upper half
does not say what its texts do.
-/

namespace WrCalibration

namespace Capture

namespace LeCroy8254

open Python FileM

variable {d tm : Bytes} {k : Key} {l v : Bytes} {lines : List Bytes}

/-! ## The dictionary of a table of values -/

/-- The value texts of a preamble, by key. -/
abbrev Values := Key → Option Bytes

namespace Values

/-- An entry that is there and converts. -/
def number {α : Type} (convert : Bytes → Py α) (text : Option Bytes) : Option α :=
  text.bind fun v => (convert v).toOption

theorem number_of_ok {α : Type} {convert : Bytes → Py α} {v : Bytes} {a : α}
    (h : convert v = .ok a) : number convert (some v) = some a := by
  rw [number, Option.bind_some, h]
  rfl

/-- The time per division of a text. -/
def perDiv (v : Bytes) : Py ℚ := Dict.getItem timebase (strip v)

/-- The range of the grid, once both its ends are there. -/
def range (vals : Values) : Option ℚ :=
  match number pyFloat (vals .maxValue), number pyFloat (vals .minValue) with
  | some yMaxGrid, some yMinGrid => some (yMaxGrid - yMinGrid)
  | _, _ => none

theorem range_eq_none_iff {vals : Values} :
    vals.range = none ↔
      number pyFloat (vals .maxValue) = none ∨ number pyFloat (vals .minValue) = none := by
  rw [range]
  rcases number pyFloat (vals .maxValue) with _ | yMaxGrid
  · simp
  · rcases number pyFloat (vals .minValue) with _ | yMinGrid
    · simp
    · simp

/-- **The dictionary of a table**, with the date and the time if there was
a line at all. -/
def preamble (vals : Values) (c : Option (Bytes × Bytes)) : Preamble where
  format := (vals .commType).map fun v => upper (strip v)
  type := c.map fun _ => ascii "RAW"
  points := number pyInt (vals .waveArrayCount)
  count := number pyInt (vals .sweepsPerAcq)
  xIncrement := number pyFloat (vals .horizInterval)
  xOrigin := number pyFloat (vals .horizOffset)
  xReference := number pyFloat (vals .firstPoint)
  yIncrement := number pyFloat (vals .verticalGain)
  yOrigin := number pyFloat (vals .verticalOffset)
  yReference := c.map fun _ => 0
  coupling := (vals .vertCoupling).map strip
  xDisplayRange := (number perDiv (vals .timebase)).map (10 * ·)
  xDisplayOrigin := number pyFloat (vals .pixelOffset)
  yDisplayRange := vals.range
  yDisplayOrigin := vals.range.map (· / 2)
  date := c.map Prod.fst
  time := c.map Prod.snd
  frameModel := (vals .instrumentName).map strip
  acquisitionMode := (vals .recordType).map strip
  completion := c.map fun _ => 0
  xUnits := (vals .horunit).map strip
  yUnits := (vals .vertunit).map strip
  bandwidthMaximum := c.map fun _ => 0
  bandwidthMinimum := c.map fun _ => 0

/-- The state of the loop for a table. -/
def state (vals : Values) (c : Option (Bytes × Bytes)) : ParseState where
  preamble := vals.preamble c
  yMaxGrid := number pyFloat (vals .maxValue)
  yMinGrid := number pyFloat (vals .minValue)

/-- The table with a value entered. -/
def set (vals : Values) (k : Key) (v : Bytes) : Values := fun g => if g = k then some v else vals g

end Values

/-- Both grid values set the display range; one of them leaves it as it
was, not there yet. -/
theorem setGrid_state (vals : Values) (c : Option (Bytes × Bytes)) {r : Option ℚ}
    (h : vals.range = none → r = none) :
    ({ vals.state c with
        preamble := { vals.preamble c with
          yDisplayRange := r, yDisplayOrigin := r.map (· / 2) } } : ParseState).setGrid =
      vals.state c := by
  rw [ParseState.setGrid, Values.state]
  rcases hmax : Values.number pyFloat (vals .maxValue) with _ | yMaxGrid
  · have hrange : vals.range = none := by rw [Values.range, hmax]
    simp only [Values.preamble, hrange, h hrange]
  · rcases hmin : Values.number pyFloat (vals .minValue) with _ | yMinGrid
    · have hrange : vals.range = none := by rw [Values.range, hmax, hmin]
      simp only [Values.preamble, hrange, h hrange]
    · have hrange : vals.range = some (yMaxGrid - yMinGrid) := by rw [Values.range, hmax, hmin]
      simp only [Values.preamble, hrange, Option.map_some]

/-- **One key**: its value is entered into the table. -/
theorem setKey_state (vals : Values) (c : Option (Bytes × Bytes)) (h : k.Accepts v) :
    (vals.state c).setKey k v = .ok ((vals.set k v).state c) := by
  cases k
  case commType | vertCoupling | instrumentName | recordType | horunit | vertunit => rfl
  case timebase =>
    obtain ⟨q, hq⟩ := h
    have hperDiv : Values.perDiv v = .ok q := Dict.getItem_of_get? hq
    have hrange : some (10 * q) = (Values.number Values.perDiv (some v)).map (10 * ·) := by
      rw [Values.number_of_ok hperDiv, Option.map_some]
    simp only [ParseState.setKey, Dict.getItem_of_get? hq, bind, Except.bind, pure, Except.pure,
      hrange]
    rfl
  case maxValue =>
    obtain ⟨q, hq⟩ := h
    have hnone : (vals.set .maxValue v).range = none → vals.range = none := by
      rw [Values.range_eq_none_iff, Values.range_eq_none_iff]
      rintro (hmax | hmin)
      · exact absurd (hmax.symm.trans (Values.number_of_ok hq)) (by simp)
      · exact .inr hmin
    simp only [ParseState.setKey, hq, bind, Except.bind, pure, Except.pure,
      ← Values.number_of_ok hq]
    exact congrArg Except.ok (setGrid_state (vals.set .maxValue v) c hnone)
  case minValue =>
    obtain ⟨q, hq⟩ := h
    have hnone : (vals.set .minValue v).range = none → vals.range = none := by
      rw [Values.range_eq_none_iff, Values.range_eq_none_iff]
      rintro (hmax | hmin)
      · exact .inl hmax
      · exact absurd (hmin.symm.trans (Values.number_of_ok hq)) (by simp)
    simp only [ParseState.setKey, hq, bind, Except.bind, pure, Except.pure,
      ← Values.number_of_ok hq]
    exact congrArg Except.ok (setGrid_state (vals.set .minValue v) c hnone)
  all_goals
    obtain ⟨a, ha⟩ := h
    simp only [ParseState.setKey, ha, bind, Except.bind, pure, Except.pure,
      ← Values.number_of_ok ha]
    rfl

/-! ## The table of a list of lines -/

/-- **The table a preamble stands for**: the last value of every key. -/
def valuesOf (lines : List Bytes) : Values := fun k => lastValue k lines

theorem lastValue_append_singleton (k : Key) (lines : List Bytes) (l : Bytes) :
    lastValue k (lines ++ [l]) = if lineKey l = some k then lineValue l else lastValue k lines := by
  rw [lastValue, List.filter_append]
  split
  · rename_i hk
    rw [List.filter_cons_of_pos (by simpa using hk), List.filter_nil, List.getLast?_append,
      List.getLast?_singleton, Option.some_or, Option.bind_some]
  · rename_i hk
    rw [List.filter_cons_of_neg (by simpa using hk), List.filter_nil, List.append_nil, lastValue]

/-- **One line** enters its value. -/
theorem preambleLine_valuesOf (h : Readable l) (lines : List Bytes) (c : Option (Bytes × Bytes)) :
    preambleLine d tm ((valuesOf lines).state c) l =
      .ok ((valuesOf (lines ++ [l])).state (some (d, tm))) := by
  unfold preambleLine
  cases hk : lineKey l with
  | none =>
    have hsame : valuesOf (lines ++ [l]) = valuesOf lines := by
      funext k
      rw [valuesOf, lastValue_append_singleton, hk, if_neg (by simp), valuesOf]
    rw [hsame]
    rfl
  | some k =>
    obtain ⟨v, hv, hacc⟩ := h.value k hk
    have hset : valuesOf (lines ++ [l]) = (valuesOf lines).set k v := by
      funext g
      rw [valuesOf, lastValue_append_singleton, hk, hv, Values.set, valuesOf]
      simp only [Option.some.injEq, eq_comm]
    simp only [hv, setKey_state _ _ hacc, hset]
    rfl

/-- **The loop computes the table**, converted. -/
theorem foldlM_preambleLine (h : ∀ l ∈ lines, Readable l) :
    lines.foldlM (preambleLine d tm) {} =
      .ok ((valuesOf lines).state (if lines = [] then none else some (d, tm))) := by
  induction lines using List.reverseRecOn with
  | nil => rfl
  | append_singleton lines l ih =>
    have hne : lines ++ [l] ≠ [] := by simp
    rw [List.foldlM_append, ih fun l' hl' => h l' (by simp [hl']), if_neg hne]
    change [l].foldlM (preambleLine d tm) _ = _
    rw [List.foldlM_cons, preambleLine_valuesOf (h l (by simp))]
    rfl

/-- What `get_preamble_from_file` returns. -/
theorem getPreambleFromFile_eq (h : ∀ l ∈ lines, Readable l) (rest : Bytes) :
    getPreambleFromFile d tm (lines.flatMap (· ++ [newline]) ++
      (ascii "#preamble_end:" ++ newline :: rest)) =
      .ok ((valuesOf lines).preamble (if lines = [] then none else some (d, tm)), rest) :=
  getPreambleFromFile_of_readable h (foldlM_preambleLine h) rest

/-! ## The order of the lines -/

/-- The text before the first colon of a line. -/
def keyText (l : Bytes) : Bytes := strip ((l.splitOn colon).headD [])

/-- A line with a key and a value. -/
def Enters (lines : List Bytes) (k : Key) (v : Bytes) : Prop :=
  ∃ l ∈ lines, lineKey l = some k ∧ lineValue l = some v

theorem keyText_of_lineKey (h : lineKey l = some k) : keyText l = k.text := by
  have hfind := List.find?_some h
  exact (of_decide_eq_true hfind).symm

/-- Lines with different keys: a key has one line, or none. -/
theorem filter_lineKey_length (hkeys : (lines.map keyText).Nodup) (k : Key) :
    (lines.filter fun l => lineKey l = some k).length ≤ 1 := by
  have hsub : ((lines.filter fun l => lineKey l = some k).map keyText).Nodup :=
    hkeys.sublist (List.filter_sublist.map keyText)
  have hsame : ∀ t ∈ (lines.filter fun l => lineKey l = some k).map keyText, t = k.text := by
    intro t ht
    obtain ⟨l, hl, rfl⟩ := List.mem_map.1 ht
    exact keyText_of_lineKey (by simpa using (List.mem_filter.1 hl).2)
  rw [List.eq_replicate_of_mem hsame] at hsub
  rw [← List.length_map keyText]
  exact List.nodup_replicate.1 hsub

/-- **The order does not matter** where the keys are different. -/
theorem valuesOf_perm {lines' : List Bytes} (hkeys : (lines.map keyText).Nodup)
    (hperm : lines'.Perm lines) : valuesOf lines' = valuesOf lines := by
  funext k
  have hlen := filter_lineKey_length hkeys k
  have hfilter := hperm.filter fun l => lineKey l = some k
  have heq : (lines'.filter fun l => lineKey l = some k) =
      lines.filter fun l => lineKey l = some k := by
    rcases hlines : lines.filter (fun l => lineKey l = some k) with _ | ⟨l, _ | ⟨l', ls⟩⟩
    · rw [hlines] at hfilter
      exact hfilter.eq_nil
    · rw [hlines] at hfilter
      exact hfilter.eq_singleton
    · rw [hlines] at hlen
      simp at hlen
  rw [valuesOf, valuesOf, lastValue, heq, lastValue]

theorem valuesOf_of_enters (hkeys : (lines.map keyText).Nodup) (h : Enters lines k v) :
    valuesOf lines k = some v := by
  obtain ⟨l, hl, hk, hv⟩ := h
  have hlen := filter_lineKey_length hkeys k
  have hmem : l ∈ lines.filter fun l => lineKey l = some k := List.mem_filter.2 ⟨hl, by simpa⟩
  rcases hlines : lines.filter (fun l => lineKey l = some k) with _ | ⟨l', _ | ⟨l'', ls⟩⟩
  · rw [hlines] at hmem
    cases hmem
  · rw [hlines, List.mem_singleton] at hmem
    rw [valuesOf, lastValue, hlines, ← hmem]
    exact hv
  · rw [hlines] at hlen
    simp at hlen

/-! ## The time base -/

/-- The units of the time base. -/
inductive TimeUnit where
  | ps | ns | us | ms | s | ks
  deriving DecidableEq

namespace TimeUnit

def all : List TimeUnit := [ps, ns, us, ms, s, ks]

theorem mem_all (u : TimeUnit) : u ∈ all := by cases u <;> decide

def text : TimeUnit → Bytes
  | ps => ascii "ps"
  | ns => ascii "ns"
  | us => ascii "us"
  | ms => ascii "ms"
  | s => ascii "s"
  | ks => ascii "ks"

def seconds : TimeUnit → ℚ
  | ps => 1e-12
  | ns => 1e-9
  | us => 1e-6
  | ms => 1e-3
  | s => 1
  | ks => 1e3

end TimeUnit

/-- The 1-2-5 sequence, up to a thousand. -/
def steps : List ℕ := [1, 2, 5, 10, 20, 50, 100, 200, 500]

/-- `<n>_<unit>/div` -/
def timebaseText (n : ℕ) (u : TimeUnit) : Bytes :=
  decimal n ++ ascii "_" ++ u.text ++ ascii "/div"

/-- The entries of `_timebase` that say what their text does: the ones in
picoseconds and nanoseconds, and the microsecond. -/
def Exact (n : ℕ) (u : TimeUnit) : Prop := u = .ps ∨ u = .ns ∨ u = .us ∧ n = 1
  deriving Decidable

/-- **The table, entry by entry.** -/
theorem timebase_eq_iff : ∀ n ∈ steps, ∀ u ∈ TimeUnit.all,
    ∀ q ∈ Dict.get? timebase (timebaseText n u), q = n * u.seconds ↔ Exact n u := by
  decide +kernel

/-! ## The preamble as it is read -/

/-- **A preamble is read right**: every order of its lines gives the same
dictionary, with the display ranges that its values say. -/
def ReadRight (d tm : Bytes) (lines : List Bytes) : Prop :=
  ∃ p : Preamble,
    (∀ (lines' : List Bytes) (rest : Bytes), lines'.Perm lines →
      getPreambleFromFile d tm (lines'.flatMap (· ++ [newline]) ++
        (ascii "#preamble_end:" ++ newline :: rest)) = .ok (p, rest)) ∧
    (∀ v v' yMaxGrid yMinGrid, Enters lines .maxValue v → Enters lines .minValue v' →
      pyFloat v = .ok yMaxGrid → pyFloat v' = .ok yMinGrid →
      p.yDisplayRange = some (yMaxGrid - yMinGrid)) ∧
    ∀ v, ∀ n ∈ steps, ∀ u, Enters lines .timebase v → strip v = timebaseText n u →
      p.xDisplayRange = some (10 * (n * u.seconds))

/-- The display range in time of a table whose time base has an entry. -/
theorem xDisplayRange_eq {vals : Values} {c : Option (Bytes × Bytes)} {q : ℚ}
    (hv : vals .timebase = some v) (hq : Dict.get? timebase (strip v) = some q) :
    (vals.preamble c).xDisplayRange = some (10 * q) := by
  have hperDiv : Values.perDiv v = .ok q := Dict.getItem_of_get? hq
  rw [Values.preamble, hv, Values.number_of_ok hperDiv, Option.map_some]

/-- The line of a time base names an entry of the table. -/
theorem exists_perDiv (h : ∀ l ∈ lines, Readable l) (hv : Enters lines .timebase v) :
    ∃ q, Dict.get? timebase (strip v) = some q := by
  obtain ⟨l, hl, hk, hv⟩ := hv
  obtain ⟨w, hw, hacc⟩ := (h l hl).value _ hk
  rw [hv] at hw
  obtain rfl := Option.some.inj hw
  exact hacc

/-- **A preamble with different keys is read right exactly if its time base
has an entry that says what its text does.** -/
theorem readRight_iff (h : ∀ l ∈ lines, Readable l) (hkeys : (lines.map keyText).Nodup) :
    ReadRight d tm lines ↔
      ∀ v, ∀ n ∈ steps, ∀ u, Enters lines .timebase v → strip v = timebaseText n u →
        Exact n u := by
  have hread : ∀ (lines' : List Bytes) (rest : Bytes), lines'.Perm lines →
      getPreambleFromFile d tm (lines'.flatMap (· ++ [newline]) ++
        (ascii "#preamble_end:" ++ newline :: rest)) =
      .ok ((valuesOf lines).preamble (if lines = [] then none else some (d, tm)), rest) := by
    intro lines' rest hperm
    have hnil : lines' = [] ↔ lines = [] :=
      ⟨fun h0 => (h0 ▸ hperm).symm.eq_nil, fun h0 => (h0 ▸ hperm).eq_nil⟩
    rw [getPreambleFromFile_eq (fun l hl => h l (hperm.mem_iff.1 hl)), valuesOf_perm hkeys hperm]
    simp only [hnil]
  have hrange : ∀ v q, ∀ n ∈ steps, ∀ u, strip v = timebaseText n u →
      Dict.get? timebase (strip v) = some q → (q = n * u.seconds ↔ Exact n u) := by
    intro v q n hn u htext hq
    exact timebase_eq_iff n hn u u.mem_all q (htext ▸ hq)
  constructor
  · rintro ⟨p, hp, -, hx⟩ v n hn u hv htext
    obtain ⟨q, hq⟩ := exists_perDiv h hv
    have hsame := (ok_pair_inj (hp lines [] (.refl _)) (hread lines [] (.refl _))).1
    have hlaw := hx v n hn u hv htext
    rw [hsame, xDisplayRange_eq (valuesOf_of_enters hkeys hv) hq, Option.some.injEq,
      mul_right_inj' (by norm_num)] at hlaw
    exact (hrange v q n hn u htext hq).1 hlaw
  · intro hexact
    refine ⟨_, hread, ?_, ?_⟩
    · intro v v' yMaxGrid yMinGrid hmax hmin hmax' hmin'
      rw [Values.preamble, Values.range, valuesOf_of_enters hkeys hmax,
        valuesOf_of_enters hkeys hmin, Values.number_of_ok hmax', Values.number_of_ok hmin']
    · intro v n hn u hv htext
      obtain ⟨q, hq⟩ := exists_perDiv h hv
      rw [xDisplayRange_eq (valuesOf_of_enters hkeys hv) hq,
        (hrange v q n hn u htext hq).2 (hexact v n hn u hv htext)]

/-- A preamble with both grid values and a time base in nanoseconds. -/
def gridLines : List Bytes :=
  [ascii "MIN_VALUE : -3.5", ascii "TIMEBASE : 5_ns/div", ascii "MAX_VALUE : 4.5"]

theorem readRight_iff_grid : ReadRight (ascii "2015-02-01") (ascii "12:00:00") gridLines := by
  refine (readRight_iff ?_ (by decide +kernel)).2 ?_
  · simp only [gridLines, List.forall_mem_cons]
    exact ⟨.of_key (k := .minValue) (v := ascii " -3.5") (by decide) (by decide +kernel)
        (by decide +kernel) (by decide +kernel) ⟨-3.5, by decide +kernel⟩,
      .of_key (k := .timebase) (v := ascii " 5_ns/div") (by decide) (by decide +kernel)
        (by decide +kernel) (by decide +kernel) ⟨5e-9, by decide +kernel⟩,
      .of_key (k := .maxValue) (v := ascii " 4.5") (by decide) (by decide +kernel)
        (by decide +kernel) (by decide +kernel) ⟨4.5, by decide +kernel⟩, by simp⟩
  · have hvalue : ∀ l ∈ gridLines, lineKey l = some .timebase →
        lineValue l = some (ascii " 5_ns/div") := by decide +kernel
    have hexact : ∀ n ∈ steps, ∀ u ∈ TimeUnit.all,
        strip (ascii " 5_ns/div") = timebaseText n u → Exact n u := by decide +kernel
    rintro v n hn u ⟨l, hl, hk, hv⟩ htext
    rw [hvalue l hl hk] at hv
    obtain rfl := Option.some.inj hv
    exact hexact n hn u u.mem_all htext

/-- **Two microseconds to the division are taken for one**: the display range
is half of what the preamble says. -/
theorem not_readRight :
    (∀ l ∈ [ascii "TIMEBASE : 2_us/div"], Readable l) ∧
      ([ascii "TIMEBASE : 2_us/div"].map keyText).Nodup ∧
      ¬ ReadRight (ascii "2015-02-01") (ascii "12:00:00") [ascii "TIMEBASE : 2_us/div"] := by
  have hreadable : ∀ l ∈ [ascii "TIMEBASE : 2_us/div"], Readable l := by
    rw [List.forall_mem_singleton]
    exact .of_key (k := .timebase) (v := ascii " 2_us/div") (by decide) (by decide +kernel)
      (by decide +kernel) (by decide +kernel) ⟨1e-6, by decide +kernel⟩
  refine ⟨hreadable, List.nodup_singleton _, ?_⟩
  rintro ⟨p, hp, -, hx⟩
  have hlaw := hx (ascii " 2_us/div") 2 (by decide) .us
    ⟨ascii "TIMEBASE : 2_us/div", by simp, by decide +kernel, by decide +kernel⟩ (by decide +kernel)
  have hsame := (ok_pair_inj (hp _ [] (.refl _)) (getPreambleFromFile_eq hreadable [])).1
  rw [hsame, xDisplayRange_eq (v := ascii " 2_us/div") (q := 1e-6) (by decide +kernel)
    (by decide +kernel), TimeUnit.seconds, Option.some.injEq] at hlaw
  norm_num at hlaw

end LeCroy8254

end Capture

end WrCalibration
