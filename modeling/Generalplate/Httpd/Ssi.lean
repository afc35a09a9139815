import Mathlib.Data.Int.Notation
import Mathlib.Data.List.TakeWhile
import Mathlib.Tactic.SplitIfs
import Generalplate.Usmart.Str

/-! # The tags of a page

The handlers write the text of a tag into `tag_insert` without a NUL behind it, and its
length is read back with `strlen`. What an earlier tag of the connection has left behind
the text is inserted with it. -/
namespace Generalplate.Httpd
open Usmart (text)

/-- What the tags show: the average of the ADC, the temperature times 100, and the registers
`TR` and `DR` of the clock. -/
structure Readings where
  adc : UInt16
  temprate : Int16
  tr : UInt32
  dr : UInt32

/-- `(char)(d + 0x30)` -/
def digitChar (d : ℤ) : UInt8 := UInt8.ofInt (d + 0x30)

/-- What `ADC_Handler` writes; the product with 0.8 is cut to an integer. -/
def adcHandler (r : Readings) : List UInt8 :=
  let adcVal : ℤ := r.adc.toNat * 4 / 5
  let digit1 := adcVal / 1000
  let digit2 := (adcVal - digit1 * 1000) / 100
  let digit3 := (adcVal - (digit1 * 1000 + digit2 * 100)) / 10
  let digit4 := adcVal - (digit1 * 1000 + digit2 * 100 + digit3 * 10)
  [digitChar digit1, digitChar digit2, digitChar digit3, digitChar digit4]

/-- What `Temperate_Handler` writes; below zero the digits are negative. -/
def temperateHandler (r : Readings) : List UInt8 :=
  let temperate := r.temprate.toInt
  [digitChar (temperate.tdiv 10000), digitChar ((temperate.tmod 10000).tdiv 1000),
    digitChar ((temperate.tmod 1000).tdiv 100), 0x2e, digitChar ((temperate.tmod 100).tdiv 10),
    digitChar (temperate.tmod 10)]

def rtcBcd2dec (val : UInt8) : UInt8 := (val >>> 4) * 10 + (val &&& 0x0f)

/-- `RTC_Get_Time`: hour, minute and second. -/
def rtcGetTime (tr : UInt32) : UInt8 × UInt8 × UInt8 :=
  let tmpreg := tr &&& 0x007f7f7f
  (rtcBcd2dec ((tmpreg &&& 0x003f0000) >>> 16).toUInt8,
    rtcBcd2dec ((tmpreg &&& 0x00007f00) >>> 8).toUInt8, rtcBcd2dec (tmpreg &&& 0x0000007f).toUInt8)

/-- The day of the week, three bits of `DR`. -/
def rtcWeekDay (dr : UInt32) : UInt8 := ((dr &&& 0x00ffff3f &&& 0x0000e000) >>> 13).toUInt8

/-- `RTC_Get_Date`: year, month and date. -/
def rtcGetDate (dr : UInt32) : UInt8 × UInt8 × UInt8 :=
  let tmpreg := dr &&& 0x00ffff3f
  (rtcBcd2dec ((tmpreg &&& 0x00ff0000) >>> 16).toUInt8,
    rtcBcd2dec ((tmpreg &&& 0x00001f00) >>> 8).toUInt8, rtcBcd2dec (tmpreg &&& 0x0000003f).toUInt8)

/-- The two digits of a field of the clock. -/
def twoDigits (v : UInt8) : List UInt8 := [digitChar (v.toNat / 10), digitChar (v.toNat % 10)]

/-- What `RTCTime_Handler` writes. -/
def rtcTimeHandler (r : Readings) : List UInt8 :=
  let (hour, min, sec) := rtcGetTime r.tr
  twoDigits hour ++ 0x3a :: twoDigits min ++ 0x3a :: twoDigits sec

/-- What `RTCdate_Handler` writes. -/
def rtcDateHandler (r : Readings) : List UInt8 :=
  let (year, month, date) := rtcGetDate r.dr
  text "20" ++ twoDigits year ++ 0x2d :: twoDigits month ++ 0x2d :: twoDigits date ++
    text " week:" ++ [digitChar (rtcWeekDay r.dr).toNat]

/-- `strlen`, none when it reads behind the memory. -/
def strlen : List UInt8 → Option Nat
  | [] => none
  | c :: s => if c = 0 then some 0 else (strlen s).map (· + 1)

/-- The bytes written from the start of a buffer on. -/
def store (buf bytes : List UInt8) : List UInt8 := bytes ++ buf.drop bytes.length

/-- `SSIHandler`: the buffer and the length, a u16. -/
def ssiHandler (r : Readings) (iIndex : Nat) (pcInsert : List UInt8) :
    Option (List UInt8 × Nat) :=
  let pcInsert :=
    match iIndex with
    | 0 => store pcInsert (adcHandler r)
    | 1 => store pcInsert (temperateHandler r)
    | 2 => store pcInsert (rtcTimeHandler r)
    | 3 => store pcInsert (rtcDateHandler r)
    | _ => pcInsert
  (strlen pcInsert).map fun len => (pcInsert, len % 2 ^ 16)

def ppcTags : List (List UInt8) := [text "t", text "w", text "h", text "y"]

/-- The loop over the tags, from index `loop` on. -/
def findTag (tagName : List UInt8) : List (List UInt8) → Nat → Option Nat
  | [], _ => none
  | tag :: tags, loop => if tagName = tag then some loop else findTag tagName tags (loop + 1)

/-- `LWIP_HTTPD_MAX_TAG_INSERT_LEN` -/
def maxTagInsertLen : Nat := 192

/-- The marker for a tag without a handler. -/
def unknownTag (tagName : List UInt8) : List UInt8 :=
  text "<b>***UNKNOWN TAG " ++ tagName.take (maxTagInsertLen - (18 + 7)) ++ text "***</b>"

/-- The tag's part of the connection state. -/
structure HttpState where
  tagInsert : List UInt8
  tagInsertLen : Nat
deriving DecidableEq, Repr

/-- `http_state_alloc` clears it. -/
def HttpState.alloc : HttpState := ⟨List.replicate (maxTagInsertLen + 1) 0, 0⟩

/-- `get_tag_insert`, none when `strlen` reads behind `tag_insert`. -/
def getTagInsert (r : Readings) (tagName : List UInt8) (hs : HttpState) : Option HttpState :=
  match findTag tagName ppcTags 0 with
  | some loop => (ssiHandler r loop hs.tagInsert).map fun (buf, len) => ⟨buf, len⟩
  | none =>
    let buf := store hs.tagInsert (unknownTag tagName ++ [0])
    (strlen buf).map fun len => ⟨buf, len % 2 ^ 16⟩

/-- The text inserted in the page. -/
def HttpState.inserted (hs : HttpState) : List UInt8 := hs.tagInsert.take hs.tagInsertLen

/-- A tag of a page, and what there is to read when it is served. -/
structure Tag where
  name : List UInt8
  readings : Readings
  clean : 0 ∉ name

/-- The tags served on a connection, with the text inserted for each. -/
def serveTags : HttpState → List Tag → Option (List (List UInt8))
  | _, [] => some []
  | hs, tag :: tags =>
    match getTagInsert tag.readings tag.name hs with
    | none => none
    | some hs => (serveTags hs tags).map (hs.inserted :: ·)

/-! ## The values of the tags -/

/-- The tag has a handler. -/
def Tag.Known (t : Tag) : Prop := t.name ∈ ppcTags

instance (t : Tag) : Decidable t.Known := inferInstanceAs (Decidable (_ ∈ _))

/-- The text of a tag, whatever was inserted before. -/
def Tag.value (t : Tag) : List UInt8 :=
  if t.name = text "t" then adcHandler t.readings
  else if t.name = text "w" then temperateHandler t.readings
  else if t.name = text "h" then rtcTimeHandler t.readings
  else if t.name = text "y" then rtcDateHandler t.readings
  else unknownTag t.name

/-- The length of that text, by the name of the tag. -/
def Tag.width (t : Tag) : Nat :=
  if t.name = text "t" then 4
  else if t.name = text "w" then 6
  else if t.name = text "h" then 8
  else if t.name = text "y" then 17
  else 25 + min t.name.length (maxTagInsertLen - 25)

theorem digitChar_ne {d : ℤ} (hlow : -0x30 < d) (hhigh : d < 0xd0) : digitChar d ≠ 0 := by
  intro hzero
  have htoNat := congrArg UInt8.toNat hzero
  rw [digitChar, UInt8.ofInt, UInt8.toNat_ofNat', UInt8.toNat_zero] at htoNat
  omega

/-- Also for the digits of a negative number. -/
theorem digitChar_small {d : ℤ} (h : d.natAbs < 0x30) : digitChar d ≠ 0 :=
  digitChar_ne (by omega) (by omega)

/-- A text of a length, with no NUL in it. -/
structure Text (n : Nat) (s : List UInt8) : Prop where
  length : s.length = n
  clean : 0 ∉ s

theorem adcHandler_text (r : Readings) : Text 4 (adcHandler r) := by
  refine ⟨rfl, ?_⟩
  have hadc := r.adc.toNat_lt
  unfold adcHandler
  simp only [List.mem_cons, List.not_mem_nil, or_false, not_or]
  refine ⟨?_, ?_, ?_, ?_⟩ <;> exact (digitChar_ne (by omega) (by omega)).symm

theorem temperateHandler_text (r : Readings) : Text 6 (temperateHandler r) := by
  refine ⟨rfl, ?_⟩
  have habs : r.temprate.toInt.natAbs < 32769 := by
    have hlow := r.temprate.le_toInt
    have hhigh := r.temprate.toInt_lt
    omega
  have htdiv : ∀ a b : ℤ, (a.tdiv b).natAbs = a.natAbs / b.natAbs := Int.natAbs_tdiv
  unfold temperateHandler
  simp only [List.mem_cons, List.not_mem_nil, or_false, not_or]
  refine ⟨(digitChar_small ?_).symm, (digitChar_small ?_).symm, (digitChar_small ?_).symm,
    by decide, (digitChar_small ?_).symm, (digitChar_small ?_).symm⟩ <;>
    simp only [htdiv, Int.natAbs_tmod, Int.reduceAbs] <;> omega

theorem twoDigits_clean (v : UInt8) : 0 ∉ twoDigits v := by
  have hv := v.toNat_lt
  unfold twoDigits
  simp only [List.mem_cons, List.not_mem_nil, or_false, not_or]
  exact ⟨(digitChar_ne (by omega) (by omega)).symm, (digitChar_ne (by omega) (by omega)).symm⟩

theorem rtcTimeHandler_text (r : Readings) : Text 8 (rtcTimeHandler r) := by
  refine ⟨rfl, ?_⟩
  unfold rtcTimeHandler
  simp only [List.mem_append, List.mem_cons, twoDigits_clean, or_false, false_or]
  decide

theorem rtcWeekDay_lt (dr : UInt32) : (rtcWeekDay dr).toNat < 8 := by
  have hand : (dr &&& 0x00ffff3f &&& 0x0000e000).toNat ≤ 0xe000 := by
    rw [UInt32.toNat_and]
    exact Nat.and_le_right
  have hshift : ((dr &&& 0x00ffff3f &&& 0x0000e000) >>> 13).toNat =
      (dr &&& 0x00ffff3f &&& 0x0000e000).toNat / 2 ^ 13 := by
    rw [UInt32.toNat_shiftRight, Nat.shiftRight_eq_div_pow]
    rfl
  rw [rtcWeekDay, UInt32.toNat_toUInt8, hshift]
  omega

theorem rtcDateHandler_text (r : Readings) : Text 17 (rtcDateHandler r) := by
  have hweek := rtcWeekDay_lt r.dr
  have h20 : 0 ∉ text "20" := by decide +kernel
  have hw : 0 ∉ text " week:" := by decide +kernel
  have hl20 : (text "20").length = 2 := by decide +kernel
  have hlw : (text " week:").length = 6 := by decide +kernel
  constructor
  · unfold rtcDateHandler
    simp [hl20, hlw, twoDigits]
  · unfold rtcDateHandler
    simp only [List.mem_append, List.mem_cons, List.not_mem_nil, twoDigits_clean, h20, hw, or_false,
      false_or, not_or]
    exact ⟨⟨by decide, by decide⟩, (digitChar_ne (by omega) (by omega)).symm⟩

theorem unknownTag_text {name : List UInt8} (h : 0 ∉ name) :
    Text (25 + min name.length (maxTagInsertLen - 25)) (unknownTag name) := by
  have hfront : (text "<b>***UNKNOWN TAG ").length = 18 ∧ 0 ∉ text "<b>***UNKNOWN TAG " := by
    decide +kernel
  have hback : (text "***</b>").length = 7 ∧ 0 ∉ text "***</b>" := by decide +kernel
  have htake : 0 ∉ name.take (maxTagInsertLen - (18 + 7)) := fun hmem =>
    h (List.mem_of_mem_take hmem)
  constructor
  · rw [unknownTag, List.length_append, List.length_append, List.length_take, hfront.1, hback.1]
    omega
  · rw [unknownTag, List.mem_append, List.mem_append, not_or, not_or]
    exact ⟨⟨hfront.2, htake⟩, hback.2⟩

theorem Tag.value_text (t : Tag) : Text t.width t.value := by
  unfold Tag.width Tag.value
  split_ifs
  · exact adcHandler_text t.readings
  · exact temperateHandler_text t.readings
  · exact rtcTimeHandler_text t.readings
  · exact rtcDateHandler_text t.readings
  · exact unknownTag_text t.clean

theorem Tag.known_iff (t : Tag) : t.Known ↔
    t.name = text "t" ∨ t.name = text "w" ∨ t.name = text "h" ∨ t.name = text "y" := by
  simp [Tag.Known, ppcTags]

/-- The value of a tag with a handler is written, that of another with a NUL. -/
theorem getTagInsert_eq (t : Tag) (hs : HttpState) :
    getTagInsert t.readings t.name hs =
      (strlen (store hs.tagInsert (if t.Known then t.value else t.value ++ [0]))).map fun len =>
        ⟨store hs.tagInsert (if t.Known then t.value else t.value ++ [0]), len % 2 ^ 16⟩ := by
  have hfind : findTag t.name ppcTags 0 =
      if t.name = text "t" then some 0 else if t.name = text "w" then some 1
      else if t.name = text "h" then some 2 else if t.name = text "y" then some 3 else none := rfl
  have hssi : ∀ {buf : List UInt8}, ((strlen buf).map fun len => (buf, len % 2 ^ 16)).map
      (fun (buf, len) => HttpState.mk buf len) =
        (strlen buf).map fun len => HttpState.mk buf (len % 2 ^ 16) := by
    intro buf
    rw [Option.map_map]
    rfl
  unfold getTagInsert Tag.value
  simp only [hfind, t.known_iff]
  by_cases h0 : t.name = text "t"
  · simp only [eq_true h0, if_true, true_or]
    exact hssi
  by_cases h1 : t.name = text "w"
  · simp only [eq_false h0, eq_true h1, if_true, if_false, true_or, or_true]
    exact hssi
  by_cases h2 : t.name = text "h"
  · simp only [eq_false h0, eq_false h1, eq_true h2, if_true, if_false, true_or, or_true]
    exact hssi
  by_cases h3 : t.name = text "y"
  · simp only [eq_false h0, eq_false h1, eq_false h2, eq_true h3, if_true, if_false, or_true]
    exact hssi
  · simp only [eq_false h0, eq_false h1, eq_false h2, eq_false h3, if_false, or_false]

/-- The text of a tag with a handler is shorter than any marker. -/
theorem Tag.width_cases (t : Tag) : t.Known ∧ t.width ≤ 17 ∨
    ¬ t.Known ∧ 25 ≤ t.width ∧ t.width ≤ maxTagInsertLen := by
  rw [t.known_iff]
  unfold Tag.width
  split_ifs with h0 h1 h2 h3
  · exact Or.inl ⟨Or.inl h0, by decide⟩
  · exact Or.inl ⟨Or.inr (Or.inl h1), by decide⟩
  · exact Or.inl ⟨Or.inr (Or.inr (Or.inl h2)), by decide⟩
  · exact Or.inl ⟨Or.inr (Or.inr (Or.inr h3)), Nat.le_refl _⟩
  · refine Or.inr ⟨?_, Nat.le_add_right .., ?_⟩
    · rw [not_or, not_or, not_or]
      exact ⟨h0, h1, h2, h3⟩
    · have hmin := Nat.min_le_right t.name.length (maxTagInsertLen - 25)
      have hmax : 25 + (maxTagInsertLen - 25) = maxTagInsertLen := rfl
      omega

/-! ## What the buffer holds -/

theorem strlen_eq {s : List UInt8} (h : 0 ∉ s) (junk : List UInt8) :
    strlen (s ++ 0 :: junk) = some s.length := by
  induction s with
  | nil => rfl
  | cons c s ih =>
    obtain ⟨hc, hs⟩ := List.ne_and_not_mem_of_not_mem_cons h
    rw [List.cons_append, strlen, if_neg hc.symm, ih hs]
    rfl

/-- The buffer holds the text `s`. Behind the NUL of a text shorter than any marker there are
zeros: no longer text was there before. -/
structure Holds (buf s : List UInt8) : Prop where
  clean : 0 ∉ s
  size : buf.length = maxTagInsertLen + 1
  behind : ∃ junk, buf = s ++ 0 :: junk ∧ (s.length < 25 → ∀ b ∈ junk, b = 0)

theorem Holds.alloc : Holds HttpState.alloc.tagInsert [] :=
  ⟨List.not_mem_nil, rfl, List.replicate maxTagInsertLen 0, rfl, fun _ _ hb =>
    List.eq_of_mem_replicate hb⟩

theorem length_store {buf bytes : List UInt8} (h : bytes.length ≤ buf.length) :
    (store buf bytes).length = buf.length := by
  rw [store, List.length_append, List.length_drop]
  omega

/-- **A handler's write** leaves what is longer of the text that was there. -/
theorem Holds.handler {buf s v : List UInt8} (h : Holds buf s) (hv : 0 ∉ v)
    (hshort : v.length ≤ 17) : Holds (store buf v) (v ++ s.drop v.length) := by
  obtain ⟨junk, hbuf, hzero⟩ := h.behind
  have hsize := h.size
  have hclean : 0 ∉ v ++ s.drop v.length := by
    rw [List.mem_append, not_or]
    exact ⟨hv, fun hmem => h.clean (List.mem_of_mem_drop hmem)⟩
  refine ⟨hclean, (length_store (by rw [hsize, maxTagInsertLen]; omega)).trans hsize, ?_⟩
  by_cases hle : v.length ≤ s.length
  · refine ⟨junk, ?_, fun hlen => hzero ?_⟩
    · rw [store, hbuf, List.drop_append_of_le_length hle, List.append_assoc]
    · rw [List.length_append, List.length_drop] at hlen
      omega
  · -- the NUL is written over, and another zero is behind it
    have hdrop : s.drop v.length = [] := List.drop_of_length_le (by omega)
    have hjunk : buf.drop v.length = junk.drop (v.length - s.length - 1) := by
      rw [hbuf, List.drop_append, hdrop, List.nil_append]
      obtain ⟨k, hk⟩ : ∃ k, v.length - s.length = k + 1 := ⟨v.length - s.length - 1, by omega⟩
      rw [hk, List.drop_succ_cons, Nat.add_sub_cancel]
    obtain ⟨b, rest, hrest⟩ : ∃ b rest, buf.drop v.length = b :: rest := by
      refine List.exists_cons_of_length_pos ?_
      rw [List.length_drop, hsize, maxTagInsertLen]
      omega
    have hall : ∀ c ∈ b :: rest, c = 0 := by
      intro c hc
      rw [← hrest, hjunk] at hc
      exact hzero (by omega) c (List.mem_of_mem_drop hc)
    obtain ⟨rfl, hrests⟩ := List.forall_mem_cons.mp hall
    exact ⟨rest, by rw [store, hrest, hdrop, List.append_nil], fun _ => hrests⟩

/-- The marker is written with its NUL. -/
theorem Holds.marker {buf s v : List UInt8} (h : Holds buf s) (hv : 0 ∉ v) (hlong : 25 ≤ v.length)
    (hfits : v.length ≤ maxTagInsertLen) : Holds (store buf (v ++ [0])) v := by
  have hsize := h.size
  refine ⟨hv, (length_store ?_).trans hsize, buf.drop (v ++ [0]).length, ?_, ?_⟩
  · rw [hsize, List.length_append, List.length_singleton]
    omega
  · rw [store, List.append_assoc]
    rfl
  · intro hless
    omega

/-- The text in the buffer behind a tag. -/
def Tag.next (s : List UInt8) (t : Tag) : List UInt8 :=
  if t.Known then t.value ++ s.drop t.value.length else t.value

/-- **One tag**: what is inserted is the text in the buffer. -/
theorem Holds.step {hs : HttpState} {s : List UInt8} (h : Holds hs.tagInsert s) (t : Tag) :
    ∃ hs', getTagInsert t.readings t.name hs = some hs' ∧ Holds hs'.tagInsert (t.next s) ∧
      hs'.inserted = t.next s := by
  have hnext : Holds (store hs.tagInsert (if t.Known then t.value else t.value ++ [0]))
      (t.next s) := by
    unfold Tag.next
    have htext := t.value_text
    have hcases := t.width_cases
    rw [← htext.length] at hcases
    rcases hcases with ⟨hknown, hshort⟩ | ⟨hknown, hlong, hfits⟩
    · rw [if_pos hknown, if_pos hknown]
      exact h.handler htext.clean hshort
    · rw [if_neg hknown, if_neg hknown]
      exact h.marker htext.clean hlong hfits
  rw [getTagInsert_eq]
  generalize store hs.tagInsert (if t.Known then t.value else t.value ++ [0]) = buf at hnext ⊢
  obtain ⟨junk, hbuf, _⟩ := hnext.behind
  have hlen : (t.next s).length < 2 ^ 16 := by
    have hsize := hnext.size
    rw [hbuf, List.length_append, List.length_cons, maxTagInsertLen] at hsize
    omega
  have hstrlen : strlen buf = some (t.next s).length := by rw [hbuf, strlen_eq hnext.clean]
  refine ⟨_, by rw [hstrlen, Option.map_some], hnext, ?_⟩
  rw [HttpState.inserted, Nat.mod_eq_of_lt hlen, hbuf, List.take_left]

/-- The texts inserted for tags, from a text in the buffer on. -/
def insertedTexts (s : List UInt8) : List Tag → List (List UInt8)
  | [] => []
  | t :: tags => t.next s :: insertedTexts (t.next s) tags

/-- **A connection**: `strlen` never reads behind the buffer. -/
theorem serveTags_eq {hs : HttpState} {s : List UInt8} (h : Holds hs.tagInsert s)
    (tags : List Tag) : serveTags hs tags = some (insertedTexts s tags) := by
  induction tags generalizing hs s with
  | nil => rfl
  | cons t tags ih =>
    obtain ⟨hs', hget, hholds, hins⟩ := h.step t
    rw [serveTags, hget]
    dsimp only
    rw [ih hholds, hins]
    rfl

/-- A tag has no handler, or its text is at least as long as the one before it. -/
def Covers (before after : Tag) : Prop := after.Known → before.width ≤ after.width

theorem next_eq_value {s : List UInt8} {t : Tag} :
    t.next s = t.value ↔ (t.Known → s.length ≤ t.value.length) := by
  unfold Tag.next
  by_cases h : t.Known
  · rw [if_pos h, List.append_right_eq_self, List.drop_eq_nil_iff]
    exact ⟨fun hle _ => hle, fun hle => hle h⟩
  · rw [if_neg h]
    exact iff_of_true rfl fun hknown => absurd hknown h

theorem insertedTexts_iff (s : List UInt8) (t : Tag) (tags : List Tag) :
    insertedTexts s (t :: tags) = (t :: tags).map Tag.value ↔
      (t.Known → s.length ≤ t.value.length) ∧ (t :: tags).IsChain Covers := by
  induction tags generalizing s t with
  | nil => simp [insertedTexts, next_eq_value]
  | cons u tags ih =>
    rw [insertedTexts, List.map_cons, List.cons.injEq, next_eq_value, List.isChain_cons_cons]
    refine and_congr_right fun hs => ?_
    rw [next_eq_value.mpr hs, ih, Covers, t.value_text.length, u.value_text.length]

/-- **The inserts of a connection** are the values of the tags just when no tag with a handler
comes right behind a longer text. -/
theorem serveTags_iff (tags : List Tag) :
    serveTags .alloc tags = some (tags.map Tag.value) ↔ tags.IsChain Covers := by
  rw [serveTags_eq Holds.alloc, Option.some.injEq]
  cases tags with
  | nil => exact iff_of_true rfl List.IsChain.nil
  | cons t tags =>
    rw [insertedTexts_iff]
    exact and_iff_right fun _ => Nat.zero_le _

/-- A date and then a voltage: the last thirteen characters of the date are behind the four
digits. -/
theorem serveTags_stale :
    let readings : Readings := ⟨1000, 2753, 0x123456, 0x142108⟩
    let date : Tag := ⟨text "y", readings, by decide +kernel⟩
    let voltage : Tag := ⟨text "t", readings, by decide +kernel⟩
    serveTags .alloc [date, voltage] = some [text "2014-01-08 week:1", text "0800-01-08 week:1"] ∧
      serveTags .alloc [date, voltage] ≠ some ([date, voltage].map Tag.value) := by
  decide +kernel

end Generalplate.Httpd
