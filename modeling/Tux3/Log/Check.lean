/-
  Log/Check.lean --- log blocks of any bytes.

  `replay_check_log` steps over the payload of a block by the size table.  It finds a code that has
  no size, but it looks up any byte in a table that ends at `LOG_TYPES`, and it does not see that a
  last record goes on behind the payload.  Where neither occurs, the payload is a run of complete
  records, and both stages of the replay read nothing else.
-/
import Tux3.Log.Run
import Tux3.Lib.Outcome

set_option autoImplicit false

namespace Tux3

open BigEndian

/-! ## Payloads -/

/-- The records of a block: `log->bytes` bytes from `log->data` on. -/
def Logblock.payload (log : Logblock) : Bytes := log.data.take log.bytes

/-- What stands behind the records. -/
def Logblock.padding (log : Logblock) : Bytes := log.data.drop log.bytes

/-- A run of complete records with valid codes, and whatever in their fields. -/
inductive CompleteRecords : Bytes → Prop where
  | nil : CompleteRecords []
  | cons (code : LogCode) (fields rest : Bytes) (hlen : fields.length = logSize code - 1)
      (h : CompleteRecords rest) : CompleteRecords (code.toByte :: (fields ++ rest))

/-- After some complete records, a payload has a byte that the size table does not have, or a record
that goes on behind the end. -/
inductive CutOff : Bytes → Prop where
  | beyond (b : UInt8) (rest : Bytes) (h : logTypes ≤ b.toNat) : CutOff (b :: rest)
  | short (code : LogCode) (fields : Bytes) (h : fields.length < logSize code - 1) :
      CutOff (code.toByte :: fields)
  | cons (code : LogCode) (fields rest : Bytes) (hlen : fields.length = logSize code - 1)
      (h : CutOff rest) : CutOff (code.toByte :: (fields ++ rest))

section Payload

variable {code : LogCode} {b : UInt8} {fields rest payload padding : Bytes} {mark : Option Bytes}
  {fuel : Nat}

theorem LogCode.toByte_lt (code : LogCode) : code.toByte.toNat < logTypes := by
  cases code <;> decide

/-- A turn of the search for a code. -/
theorem ofByte_if {x : UInt8} {code' : LogCode} {more : Option LogCode}
    (h : (if b = x then some code' else more) = some code) :
    (b = x ∧ code' = code) ∨ more = some code := by
  by_cases hb : b = x
  · rw [if_pos hb] at h
    exact Or.inl ⟨hb, Option.some.inj h⟩
  · rw [if_neg hb] at h
    exact Or.inr h

/-- The byte of a code is the only one that stands for it. -/
theorem LogCode.eq_toByte (h : LogCode.ofByte b = some code) : b = code.toByte := by
  unfold LogCode.ofByte at h
  iterate 20
    obtain ⟨hb, hcode⟩ | h := ofByte_if h
    · rw [← hcode]
      exact hb
  cases h

theorem LogCode.toByte_inj {code' : LogCode} (h : code.toByte = code'.toByte) : code = code' :=
  Option.some.inj ((LogCode.ofByte_toByte code).symm.trans
    ((congrArg LogCode.ofByte h).trans (LogCode.ofByte_toByte code')))

/-- Complete records begin with one. -/
theorem completeRecords_cons_iff (hlen : fields.length = logSize code - 1) :
    CompleteRecords (code.toByte :: (fields ++ rest)) ↔ CompleteRecords rest := by
  constructor
  · intro h
    generalize hbytes : code.toByte :: (fields ++ rest) = bytes at h
    cases h with
    | nil => cases hbytes
    | cons code' fields' rest' hlen' h =>
        obtain ⟨hcode, hrest⟩ := List.cons.inj hbytes
        obtain rfl := LogCode.toByte_inj hcode
        rw [(List.append_inj hrest (hlen.trans hlen'.symm)).2]
        exact h
  · exact CompleteRecords.cons code fields rest hlen

theorem cutOff_cons_iff (hlen : fields.length = logSize code - 1) :
    CutOff (code.toByte :: (fields ++ rest)) ↔ CutOff rest := by
  constructor
  · intro h
    generalize hbytes : code.toByte :: (fields ++ rest) = bytes at h
    cases h with
    | beyond b rest' hb =>
        obtain ⟨rfl, -⟩ := List.cons.inj hbytes
        exact absurd code.toByte_lt (Nat.not_lt.mpr hb)
    | short code' fields' hlt =>
        obtain ⟨hcode, rfl⟩ := List.cons.inj hbytes
        obtain rfl := LogCode.toByte_inj hcode
        rw [List.length_append] at hlt
        omega
    | cons code' fields' rest' hlen' h =>
        obtain ⟨hcode, hrest⟩ := List.cons.inj hbytes
        obtain rfl := LogCode.toByte_inj hcode
        rw [(List.append_inj hrest (hlen.trans hlen'.symm)).2]
        exact h
  · exact CutOff.cons code fields rest hlen

/-- A payload that begins with no valid code has no complete records. -/
theorem not_completeRecords_of_ofByte (h : LogCode.ofByte b = none) :
    ¬ CompleteRecords (b :: rest) := by
  intro hcomplete
  generalize hbytes : b :: rest = bytes at hcomplete
  cases hcomplete with
  | nil => cases hbytes
  | cons code fields rest' =>
      obtain ⟨rfl, -⟩ := List.cons.inj hbytes
      rw [LogCode.ofByte_toByte] at h
      cases h

theorem not_cutOff_of_ofByte (h : LogCode.ofByte b = none) (hb : b.toNat < logTypes) :
    ¬ CutOff (b :: rest) := by
  intro hcut
  generalize hbytes : b :: rest = bytes at hcut
  cases hcut with
  | beyond b' rest' hb' =>
      obtain ⟨rfl, -⟩ := List.cons.inj hbytes
      exact absurd hb (Nat.not_lt.mpr hb')
  | short code fields =>
      obtain ⟨rfl, -⟩ := List.cons.inj hbytes
      rw [LogCode.ofByte_toByte] at h
      cases h
  | cons code fields rest' =>
      obtain ⟨rfl, -⟩ := List.cons.inj hbytes
      rw [LogCode.ofByte_toByte] at h
      cases h

/-- A record that is cut off is not complete. -/
theorem not_completeRecords_short (h : fields.length < logSize code - 1) :
    ¬ CompleteRecords (code.toByte :: fields) := by
  intro hcomplete
  generalize hbytes : code.toByte :: fields = bytes at hcomplete
  cases hcomplete with
  | nil => cases hbytes
  | cons code' fields' rest' hlen' =>
      obtain ⟨hcode, rfl⟩ := List.cons.inj hbytes
      obtain rfl := LogCode.toByte_inj hcode
      rw [List.length_append] at h
      omega

/-- A payload begins with a complete record, with one that is cut off, or with no valid code. -/
theorem payload_cases (b : UInt8) (bytes : Bytes) :
    (∃ code fields rest, b = code.toByte ∧ bytes = fields ++ rest ∧
      fields.length = logSize code - 1) ∨
      (∃ code, b = code.toByte ∧ bytes.length < logSize code - 1) ∨ LogCode.ofByte b = none := by
  cases hcode : LogCode.ofByte b with
  | none => exact Or.inr (Or.inr rfl)
  | some code =>
      obtain hlt | hge := Nat.lt_or_ge bytes.length (logSize code - 1)
      · exact Or.inr (Or.inl ⟨code, LogCode.eq_toByte hcode, hlt⟩)
      · exact Or.inl ⟨code, bytes.take (logSize code - 1), bytes.drop (logSize code - 1),
          LogCode.eq_toByte hcode, (List.take_append_drop _ _).symm,
          by rw [List.length_take]; omega⟩

/-! ## The check of a payload -/

/-- The bytes of a mark: those of some complete records, no more than `n` bytes, and the padding. -/
def MarkAt (n : Nat) (padding : Bytes) (mark : Option Bytes) : Prop :=
  ∀ pos, mark = some pos →
    ∃ suffix, pos = suffix ++ padding ∧ CompleteRecords suffix ∧ suffix.length ≤ n

theorem MarkAt.mono {n m : Nat} (h : MarkAt n padding mark) (hle : n ≤ m) :
    MarkAt m padding mark := by
  intro pos hpos
  obtain ⟨suffix, hsuffix, hcomplete, hlen⟩ := h pos hpos
  exact ⟨suffix, hsuffix, hcomplete, Nat.le_trans hlen hle⟩

/-- The check of a payload: it accepts complete records and refuses a byte without a size, but goes
behind the table, or accepts a record that is cut off. -/
theorem checkLoop_cases (hfuel : payload.length < fuel) :
    (CompleteRecords payload ∧ ¬ CutOff payload ∧
      ∃ mark', checkLoop padding.length fuel (payload ++ padding) mark = .ok mark' ∧
        (mark = none → MarkAt payload.length padding mark') ∧ (mark ≠ none → mark' = mark)) ∨
    (¬ CompleteRecords payload ∧ CutOff payload ∧
      (checkLoop padding.length fuel (payload ++ padding) mark = .error .overrun ∨
        ∃ mark', checkLoop padding.length fuel (payload ++ padding) mark = .ok mark')) ∨
    (¬ CompleteRecords payload ∧ ¬ CutOff payload ∧
      checkLoop padding.length fuel (payload ++ padding) mark = .error .invalidCode) := by
  induction fuel generalizing payload mark with
  | zero => cases hfuel
  | succ fuel ih =>
      cases payload with
      | nil =>
          refine Or.inl ⟨.nil, (fun h : CutOff [] => nomatch h), mark, ?_, ?_, fun _ => rfl⟩
          · exact if_neg (Nat.lt_irrefl _)
          · rintro rfl pos hpos
            cases hpos
      | cons b bytes =>
          rw [List.length_cons] at hfuel
          obtain ⟨code, fields, rest, rfl, rfl, hlen⟩ | ⟨code, rfl, hlt⟩ | hnone :=
            payload_cases b bytes
          · -- A complete record, and the rest of the payload behind it.
            rw [completeRecords_cons_iff hlen, cutOff_cons_iff hlen, List.cons_append,
              List.append_assoc]
            have hdrop : (code.toByte :: (fields ++ (rest ++ padding))).drop (logSize code) =
                rest ++ padding := by
              have hpos := logSize_pos code
              obtain ⟨n, hn⟩ := Nat.exists_eq_succ_of_ne_zero (Nat.ne_of_gt hpos)
              rw [hn, List.drop_succ_cons, List.drop_left' (by omega)]
            have hlt : padding.length <
                (code.toByte :: (fields ++ (rest ++ padding))).length := by
              rw [List.length_cons, List.length_append, List.length_append]
              omega
            have hcode : (code.toByte :: (fields ++ (rest ++ padding))).head?.bind LogCode.ofByte =
                some code := LogCode.ofByte_toByte code
            rw [checkLoop, if_pos hlt, hcode]
            dsimp only
            rw [hdrop]
            have hrest : rest.length < fuel := by
              rw [List.length_append] at hfuel
              omega
            by_cases hmark : code = .unify ∧ mark = none
            · -- The first mark is here.
              obtain ⟨rfl, rfl⟩ := hmark
              rw [if_pos ⟨rfl, rfl⟩]
              obtain ⟨hcomplete, hcut, mark', heq, -, hkeep⟩ | hcut | hbad :=
                @ih rest (some (LogCode.unify.toByte :: (fields ++ (rest ++ padding)))) hrest
              · refine Or.inl ⟨hcomplete, hcut, mark', heq, fun _ pos hpos => ?_,
                  fun hne => absurd rfl hne⟩
                obtain rfl := hkeep (Option.some_ne_none _)
                obtain rfl := Option.some.inj hpos
                refine ⟨LogCode.unify.toByte :: (fields ++ rest), ?_, .cons _ _ _ hlen hcomplete,
                  Nat.le_refl _⟩
                rw [List.cons_append, List.append_assoc]
              · exact Or.inr (Or.inl hcut)
              · exact Or.inr (Or.inr hbad)
            · rw [if_neg hmark]
              obtain ⟨hcomplete, hcut, mark', heq, hfirst, hkeep⟩ | hcut | hbad := @ih rest mark hrest
              · refine Or.inl ⟨hcomplete, hcut, mark', heq, fun hnone => (hfirst hnone).mono ?_,
                  hkeep⟩
                rw [List.length_cons, List.length_append]
                omega
              · exact Or.inr (Or.inl hcut)
              · exact Or.inr (Or.inr hbad)
          · -- A record that goes on behind the end, where the loop ends too.
            refine Or.inr (Or.inl ⟨not_completeRecords_short hlt, .short code bytes hlt,
              Or.inr ?_⟩)
            have hmore : padding.length < (code.toByte :: bytes ++ padding).length := by
              rw [List.length_append, List.length_cons]
              omega
            have hcode : (code.toByte :: bytes ++ padding).head?.bind LogCode.ofByte = some code :=
              LogCode.ofByte_toByte code
            rw [checkLoop, if_pos hmore, hcode]
            dsimp only
            cases fuel with
            | zero => omega
            | succ fuel =>
                refine ⟨_, if_neg ?_⟩
                rw [List.length_drop, List.length_append, List.length_cons]
                omega
          · have hmore : padding.length < (b :: bytes ++ padding).length := by
              rw [List.length_append, List.length_cons]
              omega
            have hcode : (b :: bytes ++ padding).head?.bind LogCode.ofByte = none := hnone
            have hhead : (b :: bytes ++ padding).headD 0 = b := rfl
            rw [checkLoop, if_pos hmore, hcode]
            dsimp only
            rw [hhead]
            by_cases hb : b.toNat < logTypes
            · rw [if_pos hb]
              exact Or.inr (Or.inr ⟨not_completeRecords_of_ofByte hnone,
                not_cutOff_of_ofByte hnone hb, rfl⟩)
            · rw [if_neg hb]
              exact Or.inr (Or.inl ⟨not_completeRecords_of_ofByte hnone,
                .beyond b bytes (Nat.le_of_not_lt hb), Or.inl rfl⟩)

end Payload

/-! ## The check of a block -/

section Block

variable {g : Geometry} {rp rp' : Replay} {index : Nat} {log : Logblock}

theorem Logblock.payload_append (log : Logblock) : log.payload ++ log.padding = log.data :=
  List.take_append_drop _ _

theorem Logblock.padding_length (log : Logblock) :
    log.padding.length = log.data.length - log.bytes := List.length_drop ..

theorem Logblock.payload_fuel (log : Logblock) : log.payload.length < log.data.length + 1 := by
  unfold Logblock.payload
  rw [List.length_take]
  omega

/-- `replay_check_log` is to return 0 for a block just if it has the magic, a payload that fits, and
complete records with valid codes in it; and it reads nothing but the block and the size table. -/
def CheckRight (g : Geometry) (log : Logblock) : Prop :=
  ∀ rp index, replayCheckLog g rp index log ≠ .error .overrun ∧
    ((∃ rp', replayCheckLog g rp index log = .ok rp') ↔
      log.magic = tux3MagicLog ∧ log.bytes + 16 ≤ g.blocksize ∧ CompleteRecords log.payload)

/-- A block with a header that is refused, or with a payload that is not cut off. -/
def NotCutOff (g : Geometry) (log : Logblock) : Prop :=
  log.magic ≠ tux3MagicLog ∨ g.blocksize < log.bytes + 16 ∨ ¬ CutOff log.payload

/-- The check of a block with a good header is that of its payload. -/
theorem replayCheckLog_eq (rp : Replay) (index : Nat) (hmagic : log.magic = tux3MagicLog)
    (hbytes : log.bytes + 16 ≤ g.blocksize) :
    replayCheckLog g rp index log = (do
      let mark ← checkLoop log.padding.length (log.data.length + 1) (log.payload ++ log.padding)
        (rp.unify.map Prod.snd)
      return { rp with unify := rp.unify.or (mark.map fun pos => (index, pos)) }) := by
  rw [replayCheckLog, if_neg (not_not_intro hmagic), if_neg (Nat.not_lt.mpr hbytes),
    log.padding_length, log.payload_append]

/-- The check does right by a block just if it is not cut off. -/
theorem checkRight_iff (g : Geometry) (log : Logblock) : CheckRight g log ↔ NotCutOff g log := by
  by_cases hmagic : log.magic = tux3MagicLog
  · obtain hbig | hbytes := Nat.lt_or_ge g.blocksize (log.bytes + 16)
    · refine iff_of_true (fun rp index => ?_) (Or.inr (Or.inl hbig))
      have hrun : replayCheckLog g rp index log = .error .bytesTooBig := by
        rw [replayCheckLog, if_neg (not_not_intro hmagic), if_pos hbig]
      rw [hrun]
      exact ⟨(by rintro ⟨⟩), iff_of_false (by rintro ⟨_, ⟨⟩⟩)
        fun h => absurd h.2.1 (Nat.not_le.mpr hbig)⟩
    · have hnot : NotCutOff g log ↔ ¬ CutOff log.payload :=
        ⟨fun h => (h.resolve_left (not_not_intro hmagic)).resolve_left (Nat.not_lt.mpr hbytes),
          fun h => Or.inr (Or.inr h)⟩
      rw [hnot]
      unfold CheckRight
      simp only [replayCheckLog_eq _ _ hmagic hbytes, hmagic, hbytes, true_and]
      constructor
      · intro h hcut
        obtain ⟨hread, hiff⟩ := h ⟨[], none⟩ 0
        obtain ⟨-, hnocut, -⟩ | ⟨hincomplete, -, hover | ⟨mark', hok⟩⟩ | ⟨-, hnocut, -⟩ :=
          @checkLoop_cases log.payload log.padding none _ log.payload_fuel
        · exact hnocut hcut
        · exact hread (Outcome.bind_of_error hover)
        · exact hincomplete (hiff.mp ⟨_, Outcome.bind_of_ok hok⟩)
        · exact hnocut hcut
      · intro hnocut rp index
        obtain ⟨hcomplete, -, mark', hok, -⟩ | ⟨-, hcut, -⟩ | ⟨hincomplete, -, hbad⟩ :=
          @checkLoop_cases log.payload log.padding (rp.unify.map Prod.snd) _ log.payload_fuel
        · rw [Outcome.bind_of_ok hok]
          exact ⟨(by rintro ⟨⟩), iff_of_true ⟨_, rfl⟩ hcomplete⟩
        · exact absurd hcut hnocut
        · rw [Outcome.bind_of_error hbad]
          exact ⟨(by rintro ⟨⟩), iff_of_false (by rintro ⟨_, ⟨⟩⟩) hincomplete⟩
  · refine iff_of_true (fun rp index => ?_) (Or.inl hmagic)
    have hrun : replayCheckLog g rp index log = .error .badMagic := by
      rw [replayCheckLog, if_pos hmagic]
    rw [hrun]
    exact ⟨(by rintro ⟨⟩), iff_of_false (by rintro ⟨_, ⟨⟩⟩) fun h => absurd h.1 hmagic⟩

end Block

/-! ## The stages on a payload -/

section Stage

variable {σ : Type} {switch : LogCode → Bytes → Option (Option LogRecord × Bytes)}
  {apply : LogRecord → σ → Except ReplayError σ} {payload padding : Bytes} {fuel fuel' : Nat}
  {s : σ}

theorem reads48 (f : Nat → Option LogRecord) : ReadsExactly 6 (fun data => do
    let (a, data) ← decode48 data
    return (f a, data)) :=
  decode48_reads.bind fun a => readsExactly_some (f a)

theorem reads48Two (f : Nat → Nat → Option LogRecord) : ReadsExactly 12 (fun data => do
    let (a, data) ← decode48 data
    let (b, data) ← decode48 data
    return (f a b, data)) :=
  decode48_reads.bind fun a => reads48 (f a)

theorem reads48Three (f : Nat → Nat → Nat → Option LogRecord) : ReadsExactly 18 (fun data => do
    let (a, data) ← decode48 data
    let (b, data) ← decode48 data
    let (c, data) ← decode48 data
    return (f a b c, data)) :=
  decode48_reads.bind fun a => reads48Two (f a)

theorem reads48Four (f : Nat → Nat → Nat → Nat → Option LogRecord) :
    ReadsExactly 24 (fun data => do
      let (a, data) ← decode48 data
      let (b, data) ← decode48 data
      let (c, data) ← decode48 data
      let (d, data) ← decode48 data
      return (f a b c d, data)) :=
  decode48_reads.bind fun a => reads48Three (f a)

/-- A switch takes as much of a record as the size table says, whatever is in it. -/
def ReadsRecords (switch : LogCode → Bytes → Option (Option LogRecord × Bytes)) : Prop :=
  ∀ code, ReadsExactly (logSize code - 1) (switch code)

theorem stage1Switch_reads : ReadsRecords stage1Switch := by
  intro code
  cases code with
  | balloc | bfree | bfreeOnUnify | bfreeRelog | leafRedirect | leafFree | bnodeFree
  | orphanAdd | orphanDel | unify | delta => exact readsExactly_drop none _
  | bnodeRedirect => exact reads48Two fun a b => some (.bnodeRedirect a b)
  | bnodeRoot =>
      exact (readsExactly_readBe 1).bind fun count => reads48Four fun a b c d =>
        some (.bnodeRoot a count b c d)
  | bnodeSplit =>
      exact decode16_reads.bind fun pos => reads48Two fun a b => some (.bnodeSplit a pos b)
  | bnodeAdd => exact reads48Three fun a b c => some (.bnodeAdd a b c)
  | bnodeUpdate => exact reads48Three fun a b c => some (.bnodeUpdate a b c)
  | bnodeMerge => exact reads48Two fun a b => some (.bnodeMerge a b)
  | bnodeDel =>
      exact decode16_reads.bind fun count => reads48Two fun a b => some (.bnodeDel a b count)
  | bnodeAdjust => exact reads48Three fun a b c => some (.bnodeAdjust a b c)
  | freeblocks => exact reads48 fun a => some (.freeblocks a)

theorem stage2Switch_reads : ReadsRecords stage2Switch := by
  intro code
  cases code with
  | freeblocks | bnodeAdd | bnodeUpdate | bnodeDel | bnodeAdjust | unify | delta =>
      exact readsExactly_drop none _
  | balloc => exact decode32_reads.bind fun count => reads48 fun a => some (.balloc a count)
  | bfree => exact decode32_reads.bind fun count => reads48 fun a => some (.bfree a count)
  | bfreeOnUnify =>
      exact decode32_reads.bind fun count => reads48 fun a => some (.bfreeOnUnify a count)
  | bfreeRelog =>
      exact decode32_reads.bind fun count => reads48 fun a => some (.bfreeRelog a count)
  | leafRedirect => exact reads48Two fun a b => some (.leafRedirect a b)
  | bnodeRedirect => exact reads48Two fun a b => some (.bnodeRedirect a b)
  | leafFree => exact reads48 fun a => some (.leafFree a)
  | bnodeFree => exact reads48 fun a => some (.bnodeFree a)
  | bnodeRoot =>
      exact (readsExactly_readBe 1).bind fun count => reads48Four fun a b c d =>
        some (.bnodeRoot a count b c d)
  | bnodeSplit =>
      exact decode16_reads.bind fun pos => reads48Two fun a b => some (.bnodeSplit a pos b)
  | bnodeMerge => exact reads48Two fun a b => some (.bnodeMerge a b)
  | orphanAdd => exact decode16_reads.bind fun ver => reads48 fun a => some (.orphanAdd ver a)
  | orphanDel => exact decode16_reads.bind fun ver => reads48 fun a => some (.orphanDel ver a)

/-- Neither a read behind the bytes, nor the branch of an unknown code. -/
def GoodError (e : ReplayError) : Prop := e ≠ .overrun ∧ e ≠ .invalidCode

/-- A stage over complete records does the same whatever stands behind them, and finds each code. -/
theorem replayLoop_complete (hswitch : ReadsRecords switch)
    (happly : ∀ r s e, apply r s = .error e → GoodError e) (hcomplete : CompleteRecords payload)
    (hfuel : payload.length < fuel) (hfuel' : payload.length < fuel') :
    replayLoop switch apply padding.length fuel (payload ++ padding) s =
        replayLoop switch apply 0 fuel' payload s ∧
      ∀ e, replayLoop switch apply 0 fuel' payload s = .error e → GoodError e := by
  induction hcomplete generalizing fuel fuel' s with
  | nil =>
      cases fuel with
      | zero => cases hfuel
      | succ fuel =>
          cases fuel' with
          | zero => cases hfuel'
          | succ fuel' =>
              have hend : replayLoop switch apply 0 (fuel' + 1) [] s = .ok s :=
                if_neg (Nat.lt_irrefl 0)
              rw [hend]
              exact ⟨if_neg (Nat.lt_irrefl _), (fun e h => nomatch h)⟩
  | cons code fields rest hlen _ ih =>
      rw [List.length_cons, List.length_append] at hfuel hfuel'
      cases fuel with
      | zero => cases hfuel
      | succ fuel =>
          cases fuel' with
          | zero => cases hfuel'
          | succ fuel' =>
              obtain ⟨r, hr⟩ := hswitch code fields hlen
              have hmore : padding.length <
                  (code.toByte :: (fields ++ rest) ++ padding).length := by
                rw [List.length_append, List.length_cons]
                omega
              have hcode : (code.toByte :: (fields ++ rest) ++ padding).head?.bind
                  LogCode.ofByte = some code := LogCode.ofByte_toByte code
              have hcode' : (code.toByte :: (fields ++ rest)).head?.bind LogCode.ofByte =
                  some code := LogCode.ofByte_toByte code
              have hread : switch code (code.toByte :: (fields ++ rest) ++ padding).tail =
                  some (r, rest ++ padding) := by
                rw [List.cons_append, List.tail_cons, List.append_assoc]
                exact hr _
              have hread' : switch code (code.toByte :: (fields ++ rest)).tail = some (r, rest) :=
                hr rest
              rw [replayLoop, if_pos hmore, hcode, replayLoop,
                if_pos (by rw [List.length_cons]; omega), hcode']
              dsimp only
              rw [hread, hread']
              have hrest := fun s => @ih fuel fuel' s (by omega) (by omega)
              cases r with
              | none => exact hrest s
              | some r =>
                  dsimp only
                  cases hrun : apply r s with
                  | error e =>
                      refine ⟨rfl, fun e' h => ?_⟩
                      obtain rfl := Except.error.inj h
                      exact happly r s e hrun
                  | ok s' => exact hrest s'

/-- A block with its payload only. -/
def Logblock.payloadOnly (log : Logblock) : Logblock := { log with data := log.payload }

/-- The mark in a block without its padding. -/
def Replay.within (rp : Replay) (log : Logblock) : Replay :=
  { rp with
    unify := rp.unify.map fun mark => (mark.1, mark.2.take (mark.2.length - log.padding.length)) }

/-- The mark of the latest unify, where it is in a block, stands before some complete records. -/
def Replay.MarkIn (rp : Replay) (index : Nat) (log : Logblock) : Prop :=
  ∀ pos, rp.unify = some (index, pos) → MarkAt log.payload.length log.padding (some pos)

/-- A stage over a block with complete records does not use what stands behind the payload. -/
theorem replayBlock_complete {rp : Replay} {index : Nat} {log : Logblock}
    (hswitch : ReadsRecords switch) (happly : ∀ r s e, apply r s = .error e → GoodError e)
    (hcomplete : CompleteRecords log.payload) (hmark : rp.MarkIn index log) :
    replayBlock switch apply rp index log s =
        replayBlock switch apply (rp.within log) index log.payloadOnly s ∧
      ∀ e, replayBlock switch apply rp index log s = .error e → GoodError e := by
  have hpad : log.payload.length - log.bytes = 0 := by
    unfold Logblock.payload
    rw [List.length_take]
    omega
  have hwhole := @replayLoop_complete _ switch apply log.payload log.padding
    (log.data.length + 1) (log.payload.length + 1) s hswitch happly hcomplete log.payload_fuel
    (Nat.lt_succ_self _)
  rw [log.payload_append, log.padding_length] at hwhole
  unfold replayBlock Replay.within Logblock.payloadOnly
  dsimp only
  rw [hpad]
  cases hunify : rp.unify with
  | none => exact ⟨hwhole.1, fun e h => hwhole.2 e (hwhole.1.symm.trans h)⟩
  | some mark =>
      obtain ⟨unifyIndex, pos⟩ := mark
      dsimp only [Option.map_some]
      by_cases hbefore : index < unifyIndex
      · rw [if_pos hbefore, if_pos hbefore]
        exact ⟨rfl, (fun e h => nomatch h)⟩
      · rw [if_neg hbefore, if_neg hbefore]
        by_cases hsame : index = unifyIndex
        · subst hsame
          rw [if_pos rfl, if_pos rfl]
          obtain ⟨suffix, rfl, hsuffix, hlen⟩ := hmark pos hunify pos rfl
          have hfuel := log.payload_fuel
          have htake : (suffix ++ log.padding).take ((suffix ++ log.padding).length -
              log.padding.length) = suffix := by
            rw [List.length_append, Nat.add_sub_cancel, List.take_left]
          have hloop := @replayLoop_complete _ switch apply suffix log.padding
            (log.data.length + 1) (log.payload.length + 1) s hswitch happly hsuffix (by omega)
            (by omega)
          rw [log.padding_length] at hloop
          rw [htake]
          exact ⟨hloop.1, fun e h => hloop.2 e (hloop.1.symm.trans h)⟩
        · rw [if_neg hsame, if_neg hsame]
          exact ⟨hwhole.1, fun e h => hwhole.2 e (hwhole.1.symm.trans h)⟩

end Stage

/-! ## The whole log -/

/-- The blocks of a chain, from the last to the first. -/
def chainLogs (disk : Nat → Logblock) : Nat → Nat → List Logblock
  | 0, _ => []
  | i + 1, logchain => disk logchain :: chainLogs disk i (disk logchain).logchain

/-- A stage over a block reads its payload only, and knows each code: it does the same to the block
without what stands behind the payload, and without such an error. -/
def StageWithin (rp : Replay) (index : Nat) (log : Logblock)
    (stage : ∀ σ : Type, (LogRecord → σ → Except ReplayError σ) → Replay → Nat → Logblock → σ →
      Except ReplayError σ) : Prop :=
  ∀ (σ : Type) (apply : LogRecord → σ → Except ReplayError σ) (s : σ),
    (∀ r s e, apply r s = .error e → GoodError e) →
      stage σ apply rp index log s = stage σ apply (rp.within log) index log.payloadOnly s ∧
        ∀ e, stage σ apply rp index log s = .error e → GoodError e

/-- `replay_check_log` does right by each block of a log, and if it returns 0 for all of them, both
stages read nothing but the payloads, and find no code that they do not know.  What a stage does
with a record, and stage 2 with the address of the block, may fail with other errors. -/
def LogRight (g : Geometry) (sb : LogSb) : Prop :=
  (∀ log ∈ chainLogs sb.disk sb.saved.logcount sb.saved.logchain, CheckRight g log) ∧
    ∀ rp, replayPrepare g sb = .ok rp → ∀ index blocknr log,
      rp.blocks[index]? = some (blocknr, log) →
        StageWithin rp index log (fun _ apply rp index log s =>
          replayLogStage1 apply rp index blocknr log s) ∧
        ∀ mark : ∀ σ : Type, Nat → σ → Except ReplayError σ,
          (∀ σ s e, mark σ blocknr s = .error e → GoodError e) →
          StageWithin rp index log fun σ apply rp index log s =>
            replayLogStage2 (mark σ) apply rp index blocknr log s

/-- The blocks from an index on have complete records, and the mark of a unify stands before some of
them. -/
structure Replay.Checked (rp : Replay) (n : Nat) : Prop where
  complete : ∀ w ∈ rp.blocks, CompleteRecords w.2.payload
  index_ge : ∀ i pos, rp.unify = some (i, pos) → n ≤ i
  mark : ∀ i w, rp.blocks[i]? = some w → rp.MarkIn (n + i) w.2

section Log

variable {g : Geometry} {disk : Nat → Logblock} {rp rp' : Replay} {n logchain : Nat}
  {log : Logblock}

/-- A block that is not cut off and that the check accepts is added. -/
theorem Replay.Checked.add (h : rp.Checked (n + 1)) (hright : CheckRight g log)
    (hok : replayCheckLog g rp n log = .ok rp') :
    Replay.Checked { rp' with blocks := (logchain, log) :: rp'.blocks } n := by
  obtain ⟨hmagic, hbytes, hcomplete⟩ := (hright rp n).2.mp ⟨rp', hok⟩
  rw [replayCheckLog_eq rp n hmagic hbytes] at hok
  obtain ⟨mark, hloop, hrp⟩ := Outcome.bind_eq_ok.mp hok
  obtain rfl := Except.ok.inj hrp
  obtain ⟨-, -, mark', heq, hfirst, -⟩ | ⟨hincomplete, -, -⟩ | ⟨hincomplete, -, -⟩ :=
    @checkLoop_cases log.payload log.padding (rp.unify.map Prod.snd) _ log.payload_fuel
  · obtain rfl := Except.ok.inj (heq.symm.trans hloop)
    have hblocks : ∀ w ∈ (logchain, log) :: rp.blocks, CompleteRecords w.2.payload :=
      List.forall_mem_cons.mpr ⟨hcomplete, h.complete⟩
    cases hunify : rp.unify with
    | some mark =>
        refine ⟨hblocks, fun i pos hpos => ?_, fun i w hw pos hpos => ?_⟩
        · rw [← hunify, Option.or_of_isSome (by rw [hunify]; rfl)] at hpos
          exact Nat.le_of_succ_le (h.index_ge i pos hpos)
        · rw [← hunify, Option.or_of_isSome (by rw [hunify]; rfl)] at hpos
          have hge := h.index_ge _ pos hpos
          cases i with
          | zero => omega
          | succ i =>
              refine h.mark i w hw pos ?_
              rw [hpos, Nat.add_right_comm, Nat.add_assoc]
    | none =>
        have hmark := hfirst (by rw [hunify]; rfl)
        refine ⟨hblocks, fun i pos hpos => ?_, fun i w hw pos hpos => ?_⟩
        · obtain ⟨pos', -, hpos'⟩ := Option.map_eq_some_iff.mp hpos
          exact Nat.le_of_eq (Prod.mk.inj hpos').1
        · obtain ⟨pos', hpos', hpair⟩ := Option.map_eq_some_iff.mp hpos
          obtain ⟨hi, rfl⟩ := Prod.mk.inj hpair
          obtain rfl : i = 0 := by omega
          obtain rfl := Option.some.inj hw
          rw [← hpos']
          exact hmark
  · exact absurd hcomplete hincomplete
  · exact absurd hcomplete hincomplete

/-- The log that has been loaded. -/
theorem replayLoad_checked (hright : ∀ log ∈ chainLogs disk n logchain, CheckRight g log)
    (h : rp.Checked n) (hok : replayLoad g disk n logchain rp = .ok rp') : rp'.Checked 0 := by
  induction n generalizing logchain rp with
  | zero =>
      obtain rfl := Except.ok.inj hok
      exact h
  | succ n ih =>
      obtain ⟨hlog, hrest⟩ := List.forall_mem_cons.mp hright
      obtain ⟨rp₁, hcheck, hok⟩ := Outcome.bind_eq_ok.mp hok
      exact ih hrest (h.add hlog hcheck) hok

end Log

/-- `replay_check_log` and the stages do right by a log of any bytes, just if no block with a good
header has a payload that comes to a byte behind the size table, or to a record that goes on behind
the end. -/
theorem logRight_iff (g : Geometry) (sb : LogSb) :
    LogRight g sb ↔
      ∀ log ∈ chainLogs sb.disk sb.saved.logcount sb.saved.logchain, NotCutOff g log := by
  constructor
  · exact fun h log hlog => (checkRight_iff g log).mp (h.1 log hlog)
  · intro h
    have hright : ∀ log ∈ chainLogs sb.disk sb.saved.logcount sb.saved.logchain,
        CheckRight g log := fun log hlog => (checkRight_iff g log).mpr (h log hlog)
    refine ⟨hright, fun rp hok index blocknr log hlog => ?_⟩
    have hempty : Replay.Checked { blocks := [], unify := none } sb.saved.logcount :=
      ⟨fun w hw => absurd hw List.not_mem_nil, (fun i pos hpos => nomatch hpos),
        (fun i w hw => nomatch hw)⟩
    have hchecked := replayLoad_checked hright hempty hok
    have hcomplete := hchecked.complete _ (List.mem_of_getElem? hlog)
    have hmark : rp.MarkIn index log := by
      have hmark := hchecked.mark index _ hlog
      rwa [Nat.zero_add] at hmark
    refine ⟨fun σ apply s happly =>
      replayBlock_complete stage1Switch_reads happly hcomplete hmark, fun mark hgood => ?_⟩
    intro σ apply s happly
    unfold replayLogStage2
    dsimp only
    cases hrun : mark σ blocknr s with
    | error e =>
        refine ⟨rfl, fun e' h => ?_⟩
        obtain rfl := Except.error.inj h
        exact hgood σ s e hrun
    | ok s' => exact replayBlock_complete stage2Switch_reads happly hcomplete hmark

/-- A volume of blocks of 64 bytes, with one log block whose payload is one byte. -/
def oneByteLog (b : UInt8) : LogSb where
  log := { logmap := [], logbuf := none }
  super := ⟨7, 1⟩
  saved := ⟨7, 1⟩
  bitmap := fun _ => false
  deunify := []
  defree := []
  disk := fun _ => ⟨tux3MagicLog, 1, 0, b :: List.replicate 47 0⟩

/-- The geometry of that volume. -/
def tinyGeometry : Geometry :=
  { blockbits := 6, volblocks := 64, blockbits_ge := by decide, blockbits_le := by decide
    volblocks_ge := by decide, volblocks_le := by decide }

/-- A payload that is cut off is not done right by. -/
theorem not_logRight_oneByteLog {b : UInt8} (h : CutOff [b]) :
    ¬ LogRight tinyGeometry (oneByteLog b) := by
  intro hright
  obtain hmagic | hbytes | hcut := (checkRight_iff _ _).mp (hright.1 _ List.mem_cons_self)
  · exact hmagic rfl
  · exact absurd hbytes (Nat.not_lt.mpr (by decide : 1 + 16 ≤ tinyGeometry.blocksize))
  · exact hcut h

/-- The payload is the code of an allocation: the check returns 0 for what is no complete record, and
stage 2 reads on in the padding.  The payload is a byte from `LOG_TYPES` on: the check reads behind
its table. -/
theorem logRight_cutOff :
    (∃ rp, replayPrepare tinyGeometry (oneByteLog 0x33) = .ok rp) ∧
      ¬ CompleteRecords [0x33] ∧ ¬ LogRight tinyGeometry (oneByteLog 0x33) ∧
      replayPrepare tinyGeometry (oneByteLog 0x47) = .error .overrun ∧
      ¬ LogRight tinyGeometry (oneByteLog 0x47) :=
  ⟨⟨_, rfl⟩, @not_completeRecords_short .balloc [] (by decide),
    not_logRight_oneByteLog (.short .balloc [] (by decide)), rfl,
    not_logRight_oneByteLog (.beyond 0x47 [] (by decide))⟩

end Tux3
