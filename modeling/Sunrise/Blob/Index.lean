import Sunrise.Blob.Passes

/-!
# The index of the blobs on disk

The rows that are not marked evicted are to be those of the blobs whose chunks are all on disk.
Between a blob's last chunk and its row, and between the deletion of its files and the mark, they
are not; so the index is true of all blobs but some, and each write settles or unsettles one.

* `BlobVault.Complete`, `BlobVault.IsLive` — a blob is on disk, and in the index.

## Main results

* `BlobVault.Fitting.write`, `BlobVault.Indexed.write` — **a write keeps the index true**, of all
  blobs but those it leaves to be indexed.
-/

namespace Sunrise

namespace BlobVault

variable (σ : BlobVault)

def refs : List BlobRef :=
  σ.attachments.rows.flatMap fun a => .original a.2 :: (BlobRef.thumbnail a.2).toList

/-- All chunks of a blob are on disk. -/
def Complete (info : BlobInfo) (b : BlobId) : Prop :=
  0 < info.chunkCount b ∧ σ.hasAll b (info.chunkCount b) = true

def IsLive (b : BlobId) : Prop := ∃ row, σ.cache.find b = some row ∧ row.evictedAtMs = none

end BlobVault

/-- The blobs whose rows are still to be written, after some writes: those whose last chunk was
put, or whose files a pass deleted. -/
def unindexed (pending : List BlobId) : BlobWrite → List BlobId
  | .putChunk r idx _ => if idx + 1 = r.chunkCount then r.blobId :: pending else pending
  | .deleteAll b _ => b :: pending
  | .markEvicted b _ | .discard b => pending.filter (· ≠ b)
  | .upsert r _ => pending.filter (· ≠ r.blobId)
  | _ => pending

/-! ### What the writes are of -/

/-- What a write is of fits what its id stands for. -/
def BlobWrite.Fits (info : BlobInfo) : BlobWrite → Prop
  | .putChunk r idx _ => info.FitsRef r ∧ idx < r.chunkCount
  | .upsert r _ | .index r => info.FitsRef r
  | .record a => info.FitsAttachment a
  | _ => True

/-- The rows fit what their ids stand for. -/
structure BlobVault.Fitting (info : BlobInfo) (σ : BlobVault) : Prop where
  rows : σ.RowsFit info
  attachments : ∀ id a, σ.attachments.find id = some a → info.FitsAttachment a

variable {r : BlobRef} {pending : List BlobId}

section

variable {info : BlobInfo} {σ τ : BlobVault} {ws : List BlobWrite} {w : BlobWrite} {b : BlobId}
  {nowMs : ℕ}

theorem BlobVault.Fitting.write (h : σ.Fitting info) (hw : w.Fits info) :
    (σ.write w).Fitting info := by
  cases w with
  | markEvicted b' nowMs =>
    refine ⟨fun b row hrow => ?_, h.attachments⟩
    change (σ.cache.mapValues _).find b = some row at hrow
    rw [Table.find_mapValues] at hrow
    obtain ⟨old, hold, rfl⟩ := Option.map_eq_some_iff.mp hrow
    rw [← h.rows b old hold]
    split <;> rfl
  | upsert r nowMs => exact ⟨h.rows.upsert hw.isThumbnail, h.attachments⟩
  | index r =>
    refine ⟨fun b row hrow => ?_, h.attachments⟩
    change (σ.cache.insertOrIgnore r.blobId _).find b = some row at hrow
    rw [Table.find_insertOrIgnore] at hrow
    split at hrow
    next heq =>
      rw [heq]
      cases hold : σ.cache.find r.blobId with
      | some old =>
        rw [hold] at hrow
        obtain rfl := Option.some.inj hrow
        exact h.rows _ _ hold
      | none =>
        rw [hold] at hrow
        obtain rfl := Option.some.inj hrow
        exact hw.isThumbnail.symm
    next => exact h.rows b row hrow
  | record att =>
    refine ⟨h.rows, fun id a ha => ?_⟩
    change (σ.attachments.upsert att.id att).find id = some a at ha
    rw [Table.find_upsert] at ha
    split at ha
    next =>
      obtain rfl := Option.some.inj ha
      exact hw
    next => exact h.attachments id a ha
  | _ => exact ⟨h.rows, h.attachments⟩

theorem BlobVault.Fitting.writes (h : σ.Fitting info) (hws : ∀ w ∈ ws, w.Fits info) :
    (σ.writes ws).Fitting info := by
  induction ws generalizing σ with
  | nil => exact h
  | cons w ws ih =>
    exact ih (h.write (hws w List.mem_cons_self)) fun v hv => hws v (List.mem_cons_of_mem _ hv)

theorem BlobVault.Fitting.refs (h : σ.Fitting info) (hr : r ∈ σ.refs) :
    info.FitsRef r := by
  obtain ⟨⟨id, a⟩, ha, hmem⟩ := List.mem_flatMap.mp hr
  have hfits := h.attachments id a (Table.mem_rows.mp ha)
  rcases List.mem_cons.mp hmem with rfl | hmem
  · exact hfits.1
  · exact hfits.2 r (Option.mem_toList.mp hmem)

theorem fits_putWrites (hr : info.FitsRef r) {idx : ℕ} {sealed : List Bytes}
    (hlength : idx + sealed.length ≤ r.chunkCount)
    (h : w ∈ BlobVault.putWrites r idx sealed) : w.Fits info := by
  induction sealed generalizing idx with
  | nil => cases h
  | cons bytes rest ih =>
    rw [List.length_cons] at hlength
    rcases List.mem_cons.mp h with rfl | h
    · exact ⟨hr, by omega⟩
    · exact ih (by omega) h

theorem fits_noteWrites (hr : info.FitsRef r) (h : w ∈ σ.noteWrites r nowMs) :
    w.Fits info := by
  rcases BlobVault.mem_noteWrites h with rfl | ⟨row, -, -, rfl | rfl⟩
  · exact hr
  · trivial
  · trivial

theorem fits_evictWrites {limit : ℕ} {keep : Option BlobId}
    (h : w ∈ σ.evictWrites limit keep nowMs) : w.Fits info := by
  obtain ⟨r, -, rfl | rfl⟩ := BlobVault.mem_evictWrites.mp h <;> trivial

theorem BlobVault.Fitting.note (h : σ.Fitting info) (hr : info.FitsRef r) :
    (σ.writes (σ.noteWrites r nowMs)).Fitting info :=
  h.writes fun _ hw => fits_noteWrites hr hw

/-! ### The index -/

/-- The index says which blobs are on disk, some aside; and of a blob whose last chunk is there
none is missing. -/
structure BlobVault.Indexed (info : BlobInfo) (pending : List BlobId) (σ : BlobVault) : Prop where
  live_iff : ∀ b ∉ pending, σ.IsLive b ↔ σ.Complete info b
  whole : ∀ b ∉ pending, 0 < info.chunkCount b →
    (σ.chunks b (info.chunkCount b - 1)).isSome = true → σ.Complete info b

/-- What a write must find for the index to stay true. -/
def BlobWrite.Sound (σ : BlobVault) : BlobWrite → Prop
  | .markEvicted b _ => ∀ i, σ.chunks b i = none
  | .discard b => ¬ σ.IsLive b
  | .upsert r _ | .index r => σ.hasAll r.blobId r.chunkCount = true
  | _ => True

theorem BlobVault.IsLive.congr (h : τ.cache.find b = σ.cache.find b) :
    τ.IsLive b ↔ σ.IsLive b := by
  unfold BlobVault.IsLive
  rw [h]

theorem BlobVault.Complete.congr (h : τ.chunks b = σ.chunks b) :
    τ.Complete info b ↔ σ.Complete info b := by
  unfold BlobVault.Complete BlobVault.hasAll
  rw [h]

theorem complete_iff : σ.Complete info b ↔
    0 < info.chunkCount b ∧ ∀ i < info.chunkCount b, (σ.chunks b i).isSome = true := by
  unfold BlobVault.Complete BlobVault.hasAll
  rw [List.all_eq_true]
  simp only [List.mem_range]

theorem BlobVault.Complete.of_hasAll (hr : info.FitsRef r)
    (h : σ.hasAll r.blobId r.chunkCount = true) : σ.Complete info r.blobId := by
  refine ⟨?_, ?_⟩
  · rw [hr.chunkCount]
    exact hr.pos
  · rw [hr.chunkCount]
    exact h

theorem BlobVault.Indexed.congr (h : σ.Indexed info pending)
    (hrow : ∀ b ∉ pending, τ.IsLive b ↔ σ.IsLive b) (hfiles : ∀ b ∉ pending,
      τ.chunks b = σ.chunks b) : τ.Indexed info pending := by
  refine ⟨fun b hb => ?_, fun b hb hpos hlast => ?_⟩
  · rw [hrow b hb, BlobVault.Complete.congr (hfiles b hb)]
    exact h.live_iff b hb
  · rw [hfiles b hb] at hlast
    exact (BlobVault.Complete.congr (hfiles b hb)).mpr (h.whole b hb hpos hlast)

theorem not_complete_of_none (h : ∀ i, σ.chunks b i = none) : ¬ σ.Complete info b := by
  intro hcomplete
  obtain ⟨hpos, hall⟩ := complete_iff.mp hcomplete
  have hzero := hall 0 hpos
  rw [h 0] at hzero
  cases hzero

theorem BlobVault.Indexed.putChunk (h : σ.Indexed info pending) {idx : ℕ} (bytes : Bytes)
    (hr : info.FitsRef r) (hidx : idx < r.chunkCount) :
    (σ.write (.putChunk r idx bytes)).Indexed info
      (unindexed pending (.putChunk r idx bytes)) := by
  have hother : ∀ b ≠ r.blobId, (σ.write (.putChunk r idx bytes)).chunks b = σ.chunks b :=
    fun b hne => Function.update_of_ne hne _ _
  show (σ.write (.putChunk r idx bytes)).Indexed info
    (if idx + 1 = r.chunkCount then r.blobId :: pending else pending)
  split
  next hlast =>
    have hmore : σ.Indexed info (r.blobId :: pending) :=
      ⟨fun b hb => h.live_iff b fun hmem => hb (List.mem_cons_of_mem _ hmem),
        fun b hb => h.whole b fun hmem => hb (List.mem_cons_of_mem _ hmem)⟩
    refine hmore.congr (fun b _ => Iff.rfl) fun b hb => hother b ?_
    exact List.ne_of_not_mem_cons hb
  next hlast =>
    have hput : ∀ i, (σ.write (.putChunk r idx bytes)).chunks r.blobId i =
        if i = idx then some bytes else σ.chunks r.blobId i := by
      intro i
      show Function.update σ.chunks r.blobId _ r.blobId i = _
      rw [Function.update_self, Function.update_apply]
    have hgrow : σ.Complete info r.blobId →
        (σ.write (.putChunk r idx bytes)).Complete info r.blobId := by
      intro hcomplete
      obtain ⟨hpos, hall⟩ := complete_iff.mp hcomplete
      refine complete_iff.mpr ⟨hpos, fun i hi => ?_⟩
      rw [hput]
      split
      · rfl
      · exact hall i hi
    have hend : (σ.write (.putChunk r idx bytes)).chunks r.blobId (info.chunkCount r.blobId - 1) =
        σ.chunks r.blobId (info.chunkCount r.blobId - 1) := by
      rw [hput, if_neg]
      rw [hr.chunkCount]
      omega
    refine ⟨fun b hb => ?_, fun b hb hpos hwhole => ?_⟩
    · rcases eq_or_ne b r.blobId with rfl | hne
      · refine (h.live_iff _ hb).trans ⟨hgrow, fun hcomplete => ?_⟩
        obtain ⟨hpos, hall⟩ := complete_iff.mp hcomplete
        have hwhole := hall (info.chunkCount r.blobId - 1) (by omega)
        rw [hend] at hwhole
        exact h.whole _ hb hpos hwhole
      · exact (h.live_iff b hb).trans (BlobVault.Complete.congr (hother b hne)).symm
    · rcases eq_or_ne b r.blobId with rfl | hne
      · rw [hend] at hwhole
        exact hgrow (h.whole _ hb hpos hwhole)
      · rw [hother b hne] at hwhole
        exact (BlobVault.Complete.congr (hother b hne)).mpr (h.whole b hb hpos hwhole)

theorem BlobVault.Indexed.settle (h : σ.Indexed info pending)
    (hrow : ∀ b' ≠ b, τ.IsLive b' ↔ σ.IsLive b') (hfiles : ∀ b' ≠ b, τ.chunks b' = σ.chunks b')
    (hlive : τ.IsLive b ↔ τ.Complete info b)
    (hwhole : 0 < info.chunkCount b →
      (τ.chunks b (info.chunkCount b - 1)).isSome = true → τ.Complete info b) :
    τ.Indexed info (pending.filter (· ≠ b)) := by
  have hrest : ∀ b' ≠ b, b' ∉ pending.filter (· ≠ b) → b' ∉ pending := by
    intro b' hne hb' hmem
    exact hb' (List.mem_filter.mpr ⟨hmem, decide_eq_true hne⟩)
  refine ⟨fun b' hb' => ?_, fun b' hb' hpos hlast => ?_⟩
  · rcases eq_or_ne b' b with rfl | hne
    · exact hlive
    · rw [hrow b' hne, BlobVault.Complete.congr (hfiles b' hne)]
      exact h.live_iff b' (hrest b' hne hb')
  · rcases eq_or_ne b' b with rfl | hne
    · exact hwhole hpos hlast
    · rw [hfiles b' hne] at hlast
      exact (BlobVault.Complete.congr (hfiles b' hne)).mpr
        (h.whole b' (hrest b' hne hb') hpos hlast)

/-- **A write keeps the index true**, of all blobs but those it leaves to be indexed. -/
theorem BlobVault.Indexed.write (h : σ.Indexed info pending)
    (hfits : w.Fits info) (hsound : w.Sound σ) :
    (σ.write w).Indexed info (unindexed pending w) := by
  cases w with
  | putChunk r idx bytes => exact h.putChunk bytes hfits.1 hfits.2
  | deleteAll b' spared =>
    have hmore : σ.Indexed info (b' :: pending) :=
      ⟨fun b hb => h.live_iff b fun hmem => hb (List.mem_cons_of_mem _ hmem),
        fun b hb => h.whole b fun hmem => hb (List.mem_cons_of_mem _ hmem)⟩
    exact hmore.congr (fun b _ => Iff.rfl) fun b hb =>
      Function.update_of_ne (List.ne_of_not_mem_cons hb) _ _
  | markEvicted b' nowMs =>
    have hfind : ∀ b, (σ.write (.markEvicted b' nowMs)).cache.find b = (σ.cache.find b).map
        fun row => if b = b' then { row with evictedAtMs := some nowMs } else row :=
      fun b => Table.find_mapValues _ _ b
    have hgone : ¬ (σ.write (.markEvicted b' nowMs)).IsLive b' := by
      rintro ⟨row, hrow, hevicted⟩
      rw [hfind] at hrow
      obtain ⟨old, -, rfl⟩ := Option.map_eq_some_iff.mp hrow
      rw [if_pos rfl] at hevicted
      cases hevicted
    have hnone := @not_complete_of_none info (σ.write (.markEvicted b' nowMs)) _ hsound
    refine h.settle (fun b hne => BlobVault.IsLive.congr ?_) (fun b _ => rfl)
      (iff_of_false hgone hnone) fun _ hlast => ?_
    · rw [hfind]
      cases σ.cache.find b with
      | none => rfl
      | some row => exact congrArg some (if_neg hne)
    · change (σ.chunks b' _).isSome = true at hlast
      rw [hsound] at hlast
      cases hlast
  | discard b' =>
    have hfiles : ∀ i, (σ.write (.discard b')).chunks b' i = none := by
      intro i
      show Function.update σ.chunks b' _ b' i = none
      rw [Function.update_self]
    refine h.settle (fun b _ => Iff.rfl) (fun b hne => Function.update_of_ne hne _ _)
      (iff_of_false hsound (not_complete_of_none hfiles)) fun _ hlast => ?_
    rw [hfiles] at hlast
    cases hlast
  | upsert r nowMs =>
    have hfind : ∀ b, (σ.write (.upsert r nowMs)).cache.find b =
        if b = r.blobId then some ⟨r.sealedBytes, nowMs, r.isThumbnail, none⟩
        else σ.cache.find b := fun b => Table.find_upsert _ _ _ _
    have hcomplete : (σ.write (.upsert r nowMs)).Complete info r.blobId :=
      BlobVault.Complete.of_hasAll hfits hsound
    refine h.settle (fun b hne => BlobVault.IsLive.congr ?_) (fun b _ => rfl)
      (iff_of_true ?_ hcomplete) fun _ _ => hcomplete
    · rw [hfind, if_neg hne]
    · refine ⟨⟨r.sealedBytes, nowMs, r.isThumbnail, none⟩, ?_, rfl⟩
      rw [hfind, if_pos rfl]
  | index r =>
    refine h.congr (fun b hb => BlobVault.IsLive.congr ?_) fun b _ => rfl
    show (σ.cache.insertOrIgnore r.blobId _).find b = _
    rw [Table.find_insertOrIgnore]
    split
    next heq =>
      -- it is complete, so it has a row already
      obtain ⟨row, hrow, -⟩ := (h.live_iff b hb).mpr
        (heq ▸ BlobVault.Complete.of_hasAll hfits hsound)
      rw [heq] at hrow ⊢
      rw [hrow]
      rfl
    next => rfl
  | _ => exact h.congr (fun b _ => Iff.rfl) fun b _ => rfl

theorem BlobVault.Indexed.writes {pending : List BlobId} (h : σ.Indexed info pending)
    (hfits : ∀ w ∈ ws, w.Fits info) (hsound : ∀ p ∈ BlobVault.trace σ ws, p.2.Sound p.1) :
    (σ.writes ws).Indexed info (ws.foldl unindexed pending) := by
  induction ws generalizing σ pending with
  | nil => exact h
  | cons w ws ih =>
    exact ih (h.write (hfits w List.mem_cons_self) (hsound _ List.mem_cons_self))
      (fun v hv => hfits v (List.mem_cons_of_mem _ hv))
      fun p hp => hsound p (List.mem_cons_of_mem _ hp)

/-! ### What the writes find -/

theorem sound_passWrites {keep : Option BlobId} {plan : List (BlobId × CacheRow)}
    {p : BlobVault × BlobWrite}
    (h : p ∈ BlobVault.trace σ (BlobVault.passWrites keep nowMs plan)) : p.2.Sound p.1 := by
  obtain ⟨τ, w⟩ := p
  obtain ⟨pre, r, post, -, ⟨rfl, -⟩ | ⟨rfl, rfl⟩⟩ := BlobVault.mem_trace_passWrites h
  · trivial
  · intro i
    have hgone : ((σ.writes (BlobVault.passWrites keep nowMs pre)).write
        (.deleteAll r.1 keep)).chunks r.1 = fun _ => none := Function.update_self _ _ _
    rw [hgone]

theorem sound_noteWrites (hall : σ.hasAll r.blobId r.chunkCount = true)
    {p : BlobVault × BlobWrite} (h : p ∈ BlobVault.trace σ (σ.noteWrites r nowMs)) :
    p.2.Sound p.1 := by
  rcases List.mem_cons.mp h with rfl | h
  · exact hall
  · exact sound_passWrites h

theorem sound_putWrites {idx : ℕ} {sealed : List Bytes}
    {p : BlobVault × BlobWrite} (h : p ∈ BlobVault.trace σ (BlobVault.putWrites r idx sealed)) :
    p.2.Sound p.1 := by
  obtain ⟨τ, w⟩ := p
  obtain ⟨i, bytes, rfl⟩ := BlobVault.mem_putWrites (BlobVault.mem_of_mem_trace h)
  trivial

theorem noteWrites_of_find_none {r : BlobRef} (hnone : σ.cache.find b = none)
    (hne : b ≠ r.blobId) :
    (σ.writes (σ.noteWrites r nowMs)).chunks b = σ.chunks b ∧
      (σ.writes (σ.noteWrites r nowMs)).cache.find b = none := by
  have hupsert : (σ.write (.upsert r nowMs)).cache.find b = none := by
    show (σ.cache.upsert r.blobId _).find b = none
    rw [Table.find_upsert, if_neg hne, hnone]
  constructor
  · refine BlobVault.writes_keep (f := fun τ => τ.chunks b) fun w hw τ => ?_
    rcases List.mem_cons.mp hw with rfl | hw
    · rfl
    · obtain ⟨row, hrow, rfl | rfl⟩ := BlobVault.mem_evictWrites.mp hw
      · refine Function.update_of_ne ?_ _ _
        rintro rfl
        have hfind := (BlobVault.mem_live.mp (BlobVault.mem_evictPlan hrow).1).1
        rw [hupsert] at hfind
        cases hfind
      · rfl
  · show ((((σ.write (.upsert r nowMs)).writes _)).cache).find b = none
    unfold BlobVault.evictWrites
    rw [BlobVault.cache_passWrites, Table.find_mapValues, hupsert]
    rfl

end

end Sunrise
