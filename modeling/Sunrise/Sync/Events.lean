import Sunrise.Lib.EventStream
import Sunrise.Lib.Utf8
import Sunrise.Value

/-!
# The reader of the event stream

The relay's events reach a device as a `text/event-stream` body, cut wherever the network cuts it.
The reader keeps what has arrived in a buffer, and takes events off its head for as long as the
buffer holds a whole one.

## Main definitions

* `receive`, `receiveAll` — a chunk, and the chunks of a stream.

## Main results

* `receiveAll_interprets` — **the events read are those of the stream, however it is cut.**
-/

namespace Sunrise

open ServerSent (Event isEnd push blocks unfinished)

namespace Events

/-- A byte that ends a line. -/
def isTerminator (b : ℕ) : Bool := b == 13 || b == 10

/-- Where the line end at a position ends. Nothing if there is none. -/
def terminatorEnd (buf : Bytes) (at_ : ℕ) : Option ℕ :=
  match buf[at_]? with
  | some 13 => if buf[at_ + 1]? = some 10 then some (at_ + 2) else some (at_ + 1)
  | some 10 => some (at_ + 1)
  | _ => none

theorem terminatorEnd_bounds {buf : Bytes} {i e : ℕ} (h : terminatorEnd buf i = some e) :
    i < e ∧ i < buf.length := by
  unfold terminatorEnd at h
  split at h
  next hb =>
    have := (List.getElem?_eq_some_iff.mp hb).1
    split_ifs at h <;> simp only [Option.some.injEq] at h <;> omega
  next hb =>
    have := (List.getElem?_eq_some_iff.mp hb).1
    simp only [Option.some.injEq] at h
    omega
  next => cases h

def eventEndFrom (buf : Bytes) (lineStart : ℕ) : Option ℕ :=
  match (buf.drop lineStart).findIdx? isTerminator with
  | none => none
  | some p =>
    match _h : terminatorEnd buf (lineStart + p) with
    | none => none
    | some nextLine =>
      -- The next line is blank if it opens on a line end.
      match terminatorEnd buf nextLine with
      | some e => some e
      | none => eventEndFrom buf nextLine
termination_by buf.length - lineStart
decreasing_by
  have := terminatorEnd_bounds _h
  omega

/-- How many bytes at the head of the buffer make up its first complete event. -/
def eventEnd (buf : Bytes) : Option ℕ := eventEndFrom buf 0

/-- A line cut at its first colon. -/
def splitOnce (line : Text) : Option (Text × Text) :=
  match line.span (· != ':') with
  | (field, _ :: value) => some (field, value)
  | (_, []) => none

/-- A line of an event, after those that set the id and the data. -/
def readLine (event : Option Text × Text) (line : Text) : Option Text × Text :=
  let (field, value) := match splitOnce line with
    | some (field, value) => (field, ServerSent.Fields.dropSpace value)
    | none => (line, [])
  if field = "data".toList then (event.1, event.2 ++ value ++ ['\n'])
  else if field = "id".toList ∧ '\x00' ∉ value then (some value, event.2)
  else event

def readEvent (raw : Bytes) : Event :=
  let (id, data) := ((Utf8.decode raw).splitOnP fun c => c == '\r' || c == '\n').foldl readLine
    (none, [])
  ⟨id, data.dropLast⟩

/-- Take the next complete event off the buffer, if one is there. -/
def takeEvent (buf : Bytes) : Option Event × Bytes :=
  let buf := buf.drop (buf.takeWhile isTerminator).length
  match eventEnd buf with
  | none => (none, buf)
  | some e => (some (readEvent (buf.take e)), buf.drop e)

/-! ### The end of an event -/

theorem terminatorEnd_append (acc : Bytes) {t : ℕ} (ht : isEnd 13 10 t = true) (r : Bytes) :
    terminatorEnd (acc ++ t :: r) acc.length =
      some (if t = 13 ∧ r.head? = some 10 then acc.length + 2 else acc.length + 1) := by
  unfold terminatorEnd
  have hnext : (acc ++ t :: r)[acc.length + 1]? = r.head? := by
    rw [List.getElem?_append_right (by omega)]
    simp [List.head?_eq_getElem?]
  rw [hnext, List.getElem?_append_right le_rfl, Nat.sub_self]
  rcases ServerSent.isEnd_iff.mp ht with rfl | rfl
  · by_cases h : r.head? = some 10 <;> simp [h]
  · simp

theorem terminatorEnd_eq_none {acc r : Bytes} (h : terminatorEnd (acc ++ r) acc.length = none) :
    ∀ b ∈ r.head?, isEnd 13 10 b = false := by
  intro b hb
  cases r with
  | nil => cases hb
  | cons c r =>
    obtain rfl : c = b := by simpa using hb
    by_contra hc
    rw [terminatorEnd_append acc (by simpa using hc)] at h
    cases h

theorem exists_of_terminatorEnd {acc rest : Bytes} {e : ℕ}
    (h : terminatorEnd (acc ++ rest) acc.length = some e) :
    ∃ u r, rest = u :: r ∧ isEnd 13 10 u = true ∧
      e = if u = 13 ∧ r.head? = some 10 then acc.length + 2 else acc.length + 1 := by
  cases rest with
  | nil =>
    rw [List.append_nil] at h
    exact absurd (terminatorEnd_bounds h).2 (lt_irrefl _)
  | cons u r =>
    by_cases hu : isEnd 13 10 u = true
    · rw [terminatorEnd_append acc hu, Option.some.injEq] at h
      exact ⟨u, r, rfl, hu, h.symm⟩
    · unfold terminatorEnd at h
      rw [List.getElem?_append_right le_rfl, Nat.sub_self] at h
      have h13 : u ≠ 13 := fun hu' => hu (by simp [hu'])
      have h10 : u ≠ 10 := fun hu' => hu (by simp [hu'])
      simp [h13, h10] at h

theorem exists_nextLine (acc : Bytes) {line : Bytes} (hline : ∀ b ∈ line, isEnd 13 10 b = false)
    (hne : line ≠ []) {t : ℕ} (ht : isEnd 13 10 t = true) (r : Bytes) :
    ∃ term last rest, t :: r = term ++ [last] ++ rest ∧ isEnd 13 10 last = true ∧
      (∀ u ∈ rest.head?, ¬(last = 13 ∧ u = 10)) ∧
      terminatorEnd (acc ++ (line ++ t :: r)) (acc.length + line.length) =
        some (acc ++ line ++ term ++ [last]).length ∧
      blocks 13 10 acc (line ++ t :: r) = blocks 13 10 (acc ++ line ++ term ++ [last]) rest ∧
      unfinished 13 10 acc (line ++ t :: r) =
        unfinished 13 10 (acc ++ line ++ term ++ [last]) rest := by
  obtain ⟨m, d, rfl⟩ := line.eq_nil_or_concat'.resolve_left hne
  have hd : isEnd 13 10 d = false := hline d (by simp)
  have hpush : push 13 10 (acc ++ (m ++ [d])) t = (acc ++ (m ++ [d]) ++ [t], none) := by
    rw [← List.append_assoc]
    exact ServerSent.push_end_line hd _
  have hend := terminatorEnd_append (acc ++ (m ++ [d])) ht r
  rw [List.append_assoc, List.length_append] at hend
  rw [ServerSent.blocks_line hline, ServerSent.unfinished_line hline, hend, blocks, unfinished,
    hpush]
  by_cases h : t = 13 ∧ r.head? = some 10
  · obtain ⟨rfl, hr⟩ := h
    obtain ⟨r, rfl⟩ : ∃ r', r = 10 :: r' := by
      cases r with
      | nil => cases hr
      | cons c r => exact ⟨r, by simpa using hr⟩
    refine ⟨[13], 10, r, by simp, by decide, by simp, by simp; omega, ?_, ?_⟩
    · rw [blocks, ServerSent.push_cr_lf]
      rfl
    · rw [unfinished, ServerSent.push_cr_lf]
  · refine ⟨[], t, r, by simp, ht, ?_, by simp [h]; omega, by simp, by simp⟩
    rintro u hu ⟨rfl, rfl⟩
    exact h ⟨rfl, hu⟩

theorem exists_line {rest : Bytes} {p : ℕ} (h : rest.findIdx? isTerminator = some p) :
    ∃ line t r, rest = line ++ t :: r ∧ line.length = p ∧ isEnd 13 10 t = true ∧
      ∀ b ∈ line, isEnd 13 10 b = false := by
  obtain ⟨hp, ht, hlt⟩ := List.findIdx?_eq_some_iff_getElem.mp h
  refine ⟨rest.take p, rest[p], rest.drop (p + 1), ?_, by simp; omega, ht, ?_⟩
  · rw [List.getElem_cons_drop, List.take_append_drop]
  · intro b hb
    obtain ⟨i, hi, rfl⟩ := List.getElem_of_mem hb
    rw [List.length_take] at hi
    rw [List.getElem_take]
    exact Bool.eq_false_iff.mpr (hlt i (by omega))

/-- What the bytes of an event are: a block, and the LF of the CR LF it may end in. -/
def IsRaw (raw block : Bytes) : Prop := raw = block ∨ raw = block ++ [10]

theorem eventEndFrom_spec (buf : Bytes) (lineStart : ℕ) :
    ∀ acc rest, buf = acc ++ rest → lineStart = acc.length →
      (∀ b ∈ rest.head?, isEnd 13 10 b = false) →
      match eventEndFrom buf lineStart with
      | none => blocks 13 10 acc rest = [] ∧ unfinished 13 10 acc rest = buf
      | some e => ∃ block, IsRaw (buf.take e) block ∧ block ≠ [] ∧
          blocks 13 10 acc rest = block :: blocks 13 10 [] (buf.drop e) ∧
          unfinished 13 10 acc rest = unfinished 13 10 [] (buf.drop e) := by
  fun_induction eventEndFrom buf lineStart with
  | case1 lineStart hnone =>
    rintro acc rest rfl rfl -
    rw [List.drop_left] at hnone
    have hline := List.findIdx?_eq_none_iff.mp hnone
    have hb := ServerSent.blocks_line hline acc []
    have hu := ServerSent.unfinished_line hline acc []
    rw [List.append_nil] at hb hu
    exact ⟨hb, hu⟩
  | case2 lineStart p hp hnone =>
    rintro acc rest rfl rfl -
    rw [List.drop_left] at hp
    obtain ⟨line, t, r, rfl, rfl, ht, hline⟩ := exists_line hp
    have hend := terminatorEnd_append (acc ++ line) ht r
    rw [List.append_assoc, List.length_append, hnone] at hend
    cases hend
  | case3 lineStart p hp nextLine hnext e he =>
    rintro acc rest rfl rfl hhead
    rw [List.drop_left] at hp
    obtain ⟨line, t, r, rfl, rfl, ht, hline⟩ := exists_line hp
    have hne : line ≠ [] := by
      rintro rfl
      simpa [ht] using hhead t
    obtain ⟨term, last, rest, hrest, hlast, hcl, hend, hb, hu⟩ := exists_nextLine acc hline hne ht r
    rw [hnext, Option.some.injEq] at hend
    have hbuf : acc ++ (line ++ t :: r) = acc ++ line ++ term ++ [last] ++ rest := by simp [hrest]
    rw [hend, hbuf] at he
    obtain ⟨u, r, rfl, hu', he⟩ := exists_of_terminatorEnd he
    have hpush := ServerSent.push_blank hlast hu' (hcl u rfl) (acc ++ line ++ term)
    rw [hb, hu, hbuf, blocks, unfinished, hpush]
    generalize hblock : acc ++ line ++ term ++ [last] ++ [u] = block
    have hlen : block.length = (acc ++ line ++ term ++ [last]).length + 1 := by
      rw [← hblock, List.length_append, List.length_singleton]
    rw [List.append_cons, hblock]
    by_cases hcr : u = 13 ∧ r.head? = some 10
    · -- The LF of the blank line's CR LF is taken with the event; alone it is passed over.
      obtain ⟨r, rfl⟩ : ∃ r', r = 10 :: r' := List.head?_eq_some_iff.mp hcr.2
      rw [if_pos hcr] at he
      have hraw : block ++ 10 :: r = (block ++ [10]) ++ r := by simp
      have hlen' : e = (block ++ [10]).length := by
        rw [List.length_append, hlen, he]
        rfl
      refine ⟨block, .inr (by rw [hraw, hlen', List.take_left]), by simp [← hblock], ?_, ?_⟩
      · rw [hraw, hlen', List.drop_left]
        rfl
      · rw [hraw, hlen', List.drop_left]
        rfl
    · rw [if_neg hcr, ← hlen] at he
      refine ⟨block, .inl (by rw [he, List.take_left]), by simp [← hblock], ?_, ?_⟩
      · rw [he, List.drop_left]
        rfl
      · rw [he, List.drop_left]
  | case4 lineStart p hp nextLine hnext hnone ih =>
    rintro acc rest rfl rfl hhead
    rw [List.drop_left] at hp
    obtain ⟨line, t, r, rfl, rfl, ht, hline⟩ := exists_line hp
    have hne : line ≠ [] := by
      rintro rfl
      simpa [ht] using hhead t
    obtain ⟨term, last, rest, hrest, hlast, -, hend, hb, hu⟩ := exists_nextLine acc hline hne ht r
    rw [hnext, Option.some.injEq] at hend
    have hbuf : acc ++ (line ++ t :: r) = acc ++ line ++ term ++ [last] ++ rest := by simp [hrest]
    rw [hend, hbuf] at hnone
    rw [hb, hu]
    exact ih _ rest hbuf hend (terminatorEnd_eq_none hnone)

/-! ### The bytes of an event -/

theorem readEvent_append_lf (block : Bytes) : readEvent (block ++ [10]) = readEvent block := by
  have h := Utf8.decode_append_ascii block (b := 10) (by omega) []
  rw [readEvent, h, Utf8.decode_nil, List.splitOnP_append_cons _ _ (by decide)]
  simp only [List.splitOnP_nil, List.foldl_append]
  rfl

theorem IsRaw.readEvent_eq {raw block : Bytes} (h : IsRaw raw block) :
    readEvent raw = readEvent block := by
  rcases h with rfl | rfl
  · rfl
  · exact readEvent_append_lf block

/-! ### A step of the reader -/

theorem blocks_leading (lead : Bytes) (h : ∀ b ∈ lead, isEnd 13 10 b = true) (s : Bytes) :
    blocks 13 10 [] (lead ++ s) = blocks 13 10 [] s ∧
      unfinished 13 10 [] (lead ++ s) = unfinished 13 10 [] s := by
  induction lead with
  | nil => exact ⟨rfl, rfl⟩
  | cons b lead ih =>
    have hb := ServerSent.push_nil_end (h b List.mem_cons_self)
    rw [List.cons_append, blocks, unfinished, hb]
    exact ih fun c hc => h c (List.mem_cons_of_mem _ hc)

theorem drop_leading (buf : Bytes) :
    buf.drop (buf.takeWhile isTerminator).length = buf.dropWhile isTerminator := by
  have h : (buf.takeWhile isTerminator ++ buf.dropWhile isTerminator).drop
      (buf.takeWhile isTerminator).length = buf.dropWhile isTerminator := List.drop_left
  rwa [List.takeWhile_append_dropWhile] at h

/-- A taken event is the first block of the buffer, and the rest is read as what follows it. If
there is no event the buffer is an unfinished one. -/
theorem takeEvent_spec (buf : Bytes) :
    match takeEvent buf with
    | (none, rest) => blocks 13 10 [] buf = [] ∧ unfinished 13 10 [] buf = rest
    | (some event, rest) => rest.length < buf.length ∧ ∃ block, event = readEvent block ∧
        blocks 13 10 [] buf = block :: blocks 13 10 [] rest ∧
        unfinished 13 10 [] buf = unfinished 13 10 [] rest := by
  have hlead := blocks_leading (buf.takeWhile isTerminator) (fun b hb =>
    List.mem_takeWhile_imp hb) (buf.dropWhile isTerminator)
  rw [List.takeWhile_append_dropWhile] at hlead
  have hhead : ∀ b ∈ (buf.dropWhile isTerminator).head?, isEnd 13 10 b = false := by
    intro b hb
    have := List.head?_dropWhile_not isTerminator buf
    rw [Option.mem_def.mp hb] at this
    change isTerminator b = false
    simpa using this
  have hspec := eventEndFrom_spec (buf.dropWhile isTerminator) 0 [] _ rfl rfl hhead
  have hlen := (List.dropWhile_suffix (l := buf) isTerminator).length_le
  unfold takeEvent
  rw [drop_leading, hlead.1, hlead.2]
  change match eventEnd (buf.dropWhile isTerminator) with | none => _ | some e => _ at hspec
  dsimp only
  split
  next rest h =>
    split at h
    next hnone => simp_all
    next => cases h
  next event rest h =>
    split at h
    next => cases h
    next e he =>
      rw [he] at hspec
      obtain ⟨block, hraw, hne, hb, hu⟩ := hspec
      cases h
      refine ⟨?_, block, hraw.readEvent_eq, hb, hu⟩
      have hpos : (buf.dropWhile isTerminator).take e ≠ [] := by
        rcases hraw with h | h <;> simp [h, hne]
      rw [ne_eq, List.take_eq_nil_iff, not_or] at hpos
      have := List.length_pos_of_ne_nil hpos.2
      rw [List.length_drop]
      omega

/-- Take events until there is none. -/
def drain (buf : Bytes) : List Event × Bytes :=
  match _h : takeEvent buf with
  | (none, rest) => ([], rest)
  | (some event, rest) => (event :: (drain rest).1, (drain rest).2)
termination_by buf.length
decreasing_by
  all_goals
    have hspec := takeEvent_spec buf
    rw [_h] at hspec
    exact hspec.1

theorem drain_eq (buf : Bytes) :
    drain buf = ((blocks 13 10 [] buf).map readEvent, unfinished 13 10 [] buf) := by
  fun_induction drain buf with
  | case1 buf rest h =>
    have hspec := takeEvent_spec buf
    rw [h] at hspec
    rw [hspec.1, hspec.2]
    rfl
  | case2 buf event rest h ih =>
    have hspec := takeEvent_spec buf
    rw [h] at hspec
    obtain ⟨-, block, rfl, hb, hu⟩ := hspec
    rw [hb, hu, ih]
    rfl

/-! ### The chunks of a stream -/

def receive (buf chunk : Bytes) : List Event × Bytes := drain (buf ++ chunk)

/-- The chunks of a stream arrive. -/
def receiveAll : Bytes → List Bytes → List Event × Bytes
  | buf, [] => ([], buf)
  | buf, chunk :: chunks =>
    ((receive buf chunk).1 ++ (receiveAll (receive buf chunk).2 chunks).1,
      (receiveAll (receive buf chunk).2 chunks).2)

theorem receive_eq {buf : Bytes} (h : ServerSent.Open 13 10 buf) (chunk : Bytes) :
    receive buf chunk =
      ((blocks 13 10 buf chunk).map readEvent, unfinished 13 10 buf chunk) := by
  rw [receive, drain_eq, ServerSent.blocks_append, ServerSent.unfinished_append, h.blocks_eq,
    h.unfinished_eq, List.nil_append]

theorem receiveAll_eq {buf : Bytes} (h : ServerSent.Open 13 10 buf) (chunks : List Bytes) :
    receiveAll buf chunks =
      ((blocks 13 10 buf chunks.flatten).map readEvent, unfinished 13 10 buf chunks.flatten) := by
  induction chunks generalizing buf with
  | nil => rfl
  | cons chunk chunks ih =>
    rw [receiveAll, receive_eq h, ih (h.unfinished chunk), List.flatten_cons,
      ServerSent.blocks_append, ServerSent.unfinished_append, List.map_append]

/-! ### The interpretation of a stream -/

theorem reading_decode : ServerSent.Reading 13 10 '\r' '\n' Utf8.decode Char.ofNat where
  cr_eq := rfl
  lf_eq := rfl
  append_end l c hc r := by
    refine Utf8.decode_append_ascii l ?_ r
    rcases ServerSent.isEnd_iff.mp hc with rfl | rfl <;> omega
  eq_nil := Utf8.decode_eq_nil
  not_end {l} hl c hc := by
    by_contra h
    rcases ServerSent.isEnd_iff.mp (by simpa using h) with rfl | rfl
    · exact absurd (hl _ (Utf8.mem_of_mem_decode hc (by decide) (by decide))) (by decide)
    · exact absurd (hl _ (Utf8.mem_of_mem_decode hc (by decide) (by decide))) (by decide)

theorem process_eq (p : ServerSent.Fields) (field value : Text) :
    (if field = "data".toList then (p.id, p.data ++ value ++ ['\n'])
      else if field = "id".toList ∧ '\x00' ∉ value then (some value, p.data)
      else (p.id, p.data)) =
      ((p.process field value).id, (p.process field value).data) := by
  unfold ServerSent.Fields.process
  split_ifs <;> simp_all

theorem readLine_eq (p : ServerSent.Fields) (line : Text) :
    readLine (p.id, p.data) line = ((p.processLine line).id, (p.processLine line).data) := by
  have hline : line.takeWhile (· != ':') ++ line.dropWhile (· != ':') = line :=
    List.takeWhile_append_dropWhile
  unfold readLine splitOnce ServerSent.Fields.processLine
  rw [List.span_eq_takeWhile_dropWhile]
  generalize line.takeWhile (· != ':') = field at hline ⊢
  generalize line.dropWhile (· != ':') = rest at hline ⊢
  rcases rest with _ | ⟨c, value⟩
  · rw [List.append_nil] at hline
    subst hline
    rcases field with _ | ⟨d, field⟩
    · exact process_eq p [] []
    · exact process_eq p (d :: field) []
  · have hprocess := process_eq p field (ServerSent.Fields.dropSpace value)
    rcases field with _ | ⟨d, field⟩
    · have hcomment (v : Text) : p.process [] v = p := by simp [ServerSent.Fields.process]
      rwa [hcomment] at hprocess
    · exact hprocess

theorem foldl_readLine (lines : List Text) (p : ServerSent.Fields) :
    lines.foldl readLine (p.id, p.data) =
      ((lines.foldl ServerSent.Fields.processLine p).id,
        (lines.foldl ServerSent.Fields.processLine p).data) := by
  induction lines generalizing p with
  | nil => rfl
  | cons line lines ih => rw [List.foldl_cons, readLine_eq, ih, List.foldl_cons]

/-- The event of a block is that of its fields, without the last LF of the data. -/
theorem readEvent_eq (block : Bytes) :
    readEvent block =
      ⟨(ServerSent.fieldsOf (Utf8.decode block)).id,
        (ServerSent.fieldsOf (Utf8.decode block)).data.dropLast⟩ := by
  have h := foldl_readLine ((Utf8.decode block).splitOnP (isEnd '\r' '\n')) {}
  change (match ((Utf8.decode block).splitOnP (isEnd '\r' '\n')).foldl readLine (none, []) with
    | (id, data) => Event.mk id data.dropLast) = _
  rw [h]
  rfl

theorem data_fieldsOf (block : Text) :
    (ServerSent.fieldsOf block).data = [] ∨
      (ServerSent.fieldsOf block).data.getLast? = some '\n' := by
  unfold ServerSent.fieldsOf
  generalize block.splitOnP (isEnd '\r' '\n') = lines
  suffices h : ∀ p : ServerSent.Fields, (p.data = [] ∨ p.data.getLast? = some '\n') →
      (lines.foldl ServerSent.Fields.processLine p).data = [] ∨
        (lines.foldl ServerSent.Fields.processLine p).data.getLast? = some '\n' from h {} (.inl rfl)
  induction lines with
  | nil => exact fun p hp => hp
  | cons line lines ih =>
    refine fun p hp => ih _ ?_
    have hprocess (field value : Text) : (p.process field value).data = [] ∨
        (p.process field value).data.getLast? = some '\n' := by
      unfold ServerSent.Fields.process
      split_ifs <;> simp [hp]
    unfold ServerSent.Fields.processLine
    split
    · exact hp
    · exact hprocess _ _
    · exact hprocess _ _

/-- Aside from an event without data, a block is read as the event its blank line dispatches. -/
theorem filter_readEvent (block : Bytes) :
    [readEvent block].filter (fun e => e.data ≠ []) =
      (ServerSent.fieldsOf (Utf8.decode block)).dispatch.toList.filter fun e => e.data ≠ [] := by
  rw [readEvent_eq, ServerSent.Fields.dispatch]
  rcases data_fieldsOf (Utf8.decode block) with h | h
  · simp [h]
  · have hne : (ServerSent.fieldsOf (Utf8.decode block)).data ≠ [] := by
      rintro h'
      simp [h'] at h
    rw [if_neg hne, if_pos h]
    rfl

/-- However a stream is cut into chunks, aside from events without data the reader reads those of
the interpretation of the whole stream, in order, and what it keeps is what the stream has begun of
its next event. -/
theorem receiveAll_interprets (chunks : List Bytes) (h : ¬Utf8.bom <+: chunks.flatten) :
    (receiveAll [] chunks).1.filter (fun e => e.data ≠ []) =
        (ServerSent.interpret (Utf8.decodeStream chunks.flatten)).filter (fun e => e.data ≠ []) ∧
      ServerSent.IsUnfinished 13 10 chunks.flatten (receiveAll [] chunks).2 := by
  rw [receiveAll_eq .nil]
  refine ⟨?_, ServerSent.isUnfinished_unfinished (by decide) _⟩
  have hblocks := (reading_decode.blocks_unfinished (by decide) chunks.flatten [] .nil).1
  rw [Utf8.decode_nil] at hblocks
  rw [Utf8.decodeStream, if_neg h, ServerSent.interpret_eq, hblocks]
  generalize blocks 13 10 [] chunks.flatten = bs
  induction bs with
  | nil => rfl
  | cons b bs ih =>
    rw [List.map_cons, List.map_cons, List.flatMap_cons, List.filter_append, ← ih,
      ← filter_readEvent, ← List.filter_append]
    rfl

/-- `id:7` and `data:a`, cut within the CR LF of the first line and of the blank one. -/
theorem receiveAll_interprets_cut :
    ¬Utf8.bom <+: [[105, 100, 58, 55, 13], [10, 100, 97, 116, 97, 58, 97, 13, 10, 13],
        [10, 100, 97]].flatten ∧
      (receiveAll [] [[105, 100, 58, 55, 13], [10, 100, 97, 116, 97, 58, 97, 13, 10, 13],
          [10, 100, 97]]).1.filter (fun e => e.data ≠ []) =
        (ServerSent.interpret (Utf8.decodeStream [[105, 100, 58, 55, 13],
          [10, 100, 97, 116, 97, 58, 97, 13, 10, 13], [10, 100, 97]].flatten)).filter
          (fun e => e.data ≠ []) ∧
      ServerSent.IsUnfinished 13 10 [[105, 100, 58, 55, 13],
        [10, 100, 97, 116, 97, 58, 97, 13, 10, 13], [10, 100, 97]].flatten
        (receiveAll [] [[105, 100, 58, 55, 13], [10, 100, 97, 116, 97, 58, 97, 13, 10, 13],
          [10, 100, 97]]).2 :=
  ⟨by decide, receiveAll_interprets _ (by decide)⟩

end Events

end Sunrise
