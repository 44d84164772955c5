-- What `Proxy.Do` makes of an upstream body. A body up to the limit arrives as it is, and one
-- that fails is reported as a failure. So is a body above the limit: the spoke puts the text
-- of its cap error into the trail, and the hub takes any text there for a failure of the
-- upstream before it looks at the flag.
import PromFleet.ProxyBody

namespace prom_fleet.proxybody

open List

/-! ## Reads of the upstream -/

/-- The bytes that are left. -/
def Upstream.content (u : Upstream) : Bytes := u.pieces.flatten

/-- After the last byte of these pieces there is a read with neither bytes nor an end. -/
def stallsAfter (eager : Bool) : List Bytes → Bool
  | [] => false
  | x :: xs => if x ++ xs.flatten = [] then !(xs.isEmpty && eager) else stallsAfter eager xs

def Upstream.stalls (u : Upstream) : Bool := stallsAfter u.eager u.pieces

inductive UpstreamRead (u : Upstream) (p : Nat) : (Bytes × Option Ending) × Upstream → Prop
  | more {data : Bytes} {u' : Upstream} (hlen : data.length ≤ p)
    (hcontent : data ++ u'.content = u.content) (hending : u'.ending = u.ending)
    (hsize : u'.size < u.size) (hstalls : u.stalls = if u.content = [] then true else u'.stalls) :
    UpstreamRead u p ((data, none), u')
  | last {data : Bytes} {u' : Upstream} (hlen : data.length ≤ p) (hcontent : data = u.content)
    (hstalls : u.stalls = false) : UpstreamRead u p ((data, some u.ending), u')

variable {p : Nat} {u : Upstream}

theorem Upstream.read_cases (hp : 0 < p) : UpstreamRead u p (u.read p) := by
  obtain ⟨pieces, ending, eager⟩ := u
  cases pieces with
  | nil => exact .last (Nat.zero_le p) rfl rfl
  | cons x xs =>
    unfold Upstream.read
    dsimp only
    split
    · rename_i hlen
      by_cases hlast : (xs.isEmpty && eager) = true
      · rw [if_pos hlast]
        have hxs : xs = [] := by simp_all
        subst hxs
        have heager : eager = true := by simpa using hlast
        exact .last hlen (by simp [content]) (by simp [stalls, stallsAfter, heager])
      · rw [if_neg hlast]
        refine .more hlen rfl rfl (by simp [size]; omega) ?_
        simp [stalls, stallsAfter, content, hlast]
    · rename_i hlen
      have hx : x ≠ [] := by
        rintro rfl
        exact hlen (Nat.zero_le p)
      have hdrop : x.drop p ≠ [] := by simpa using hlen
      refine .more (length_take_le _ _) (by simp [content, ← append_assoc]) rfl ?_ ?_
      · simp [size]
        omega
      · simp [stalls, stallsAfter, content, hx, hdrop]

/-! ## Reads of the capped body -/

/-- A body that has neither met its cap nor failed. -/
structure Running (b : LimitedBody) : Prop where
  truncated : b.truncated = false
  readErr : b.readErr = none
  within : b.n ≤ b.limit

inductive LimitedRead (b : LimitedBody) : (Bytes × Option BodyErr) × LimitedBody → Prop
  | past {b' : LimitedBody} (hover : b.limit - b.n < b.src.content.length)
    (htruncated : b'.truncated = true) :
    LimitedRead b ((b.src.content.take (b.limit - b.n), some .tooLarge), b')
  | more {data : Bytes} {b' : LimitedBody} (hn : b'.n = b.n + data.length)
    (hlimit : b'.limit = b.limit) (hcontent : data ++ b'.src.content = b.src.content)
    (hending : b'.src.ending = b.src.ending) (hsize : b'.src.size < b.src.size)
    (hstalls : b.src.stalls = if b.src.content = [] then true else b'.src.stalls)
    (hrunning : Running b') : LimitedRead b ((data, none), b')
  | eof {b' : LimitedBody} (hfits : b.src.content.length ≤ b.limit - b.n)
    (hending : b.src.ending = .eof) (htruncated : b'.truncated = false)
    (hreadErr : b'.readErr = none) : LimitedRead b ((b.src.content, some .eof), b')
  | failed {b' : LimitedBody} (e : ReadErr) (hfits : b.src.content.length ≤ b.limit - b.n)
    (hending : b.src.ending = .failed e) (hstalls : b.src.stalls = false)
    (htruncated : b'.truncated = false) (hreadErr : b'.readErr = some e) :
    LimitedRead b ((b.src.content, some (.failed e)), b')

theorem LimitedBody.read_cases {b : LimitedBody} (h : Running b) (hp : 0 < p) :
    LimitedRead b (b.read p) := by
  have hwithin := h.within
  unfold LimitedBody.read
  rw [h.truncated, h.readErr]
  simp only [Bool.false_eq_true, if_false]
  generalize hq : (if b.limit - b.n < p then b.limit - b.n + 1 else p) = q
  have hqpos : 0 < q := by
    rw [← hq]
    split <;> omega
  have hqle : q ≤ b.limit - b.n + 1 := by
    rw [← hq]
    split <;> omega
  have hkeep (data : Bytes) : data.take (data.length - (b.n + data.length - b.limit)) =
      data.take (b.limit - b.n) := by
    rw [take_eq_take_iff]
    omega
  have hread := Upstream.read_cases (u := b.src) hqpos
  generalize b.src.read q = r at hread
  cases hread with
  | @more data u' hlen hcontent hending hsize hstalls =>
    simp only
    split
    · rename_i hover
      have htaken : data.take (b.limit - b.n) = b.src.content.take (b.limit - b.n) := by
        rw [← hcontent, take_append_of_le_length (by omega)]
      rw [hkeep, htaken]
      refine .past ?_ rfl
      rw [← hcontent, length_append]
      omega
    · rename_i hover
      rw [hkeep, take_of_length_le (by omega)]
      refine .more rfl rfl hcontent hending hsize hstalls ⟨rfl, rfl, ?_⟩
      simp only
      omega
  | @last data u' hlen hcontent hstalls =>
    subst hcontent
    simp only
    split
    · rename_i hover
      rw [hkeep]
      exact .past (by omega) rfl
    · rename_i hover
      rw [hkeep, take_of_length_le (by omega)]
      cases hending : b.src.ending with
      | eof => exact .eof (by omega) hending rfl rfl
      | failed e => exact .failed e (by omega) hending hstalls rfl rfl

/-! ## The stream of the spoke -/

/-- What the spoke sends for the bytes `whole` and their end, under the cap `limit`: a body above
the cap is cut, or ends as if it had met it; the end of a body is `lost` at a read past the budget
that brings nothing. -/
inductive Delivered (whole : Bytes) (ending : Ending) (limit : Nat) (lost : Prop) (s : Streamed) :
    Prop
  | cut (hover : limit < whole.length) (hchunks : s.chunks.flatten = whole.take limit)
    (htruncated : s.body.truncated = true)
  | clean (hend : whole.length ≤ limit → ending = .eof ∨ lost)
    (hchunks : s.chunks.flatten = whole.take limit)
    (hanswers : s.truncated = false ∧ s.err = none)
    (hbody : s.body.truncated = false ∧ s.body.readErr = none)
  | broken (e : ReadErr) (hfits : whole.length ≤ limit) (hending : ending = .failed e)
    (hkept : ¬lost) (hchunks : s.chunks.flatten = whole) (htruncated : s.truncated = false)
    (herr : s.err = notEOF (some (.failed e)))
    (hbody : s.body.truncated = false ∧ s.body.readErr = some e)

theorem flatten_push (chunks : List Bytes) (data : Bytes) :
    (if data.isEmpty then chunks else chunks ++ [data]).flatten = chunks.flatten ++ data := by
  by_cases h : data.isEmpty = true
  · rw [if_pos h, isEmpty_iff.mp h, append_nil]
  · rw [if_neg h, flatten_append, flatten_singleton]

variable {chunkBytes : Nat} {whole : Bytes}

/-- A turn of the loop of `streamBody`: what is sent and what is left make the whole body. -/
structure Turn (whole : Bytes) (budget : Nat) (body : LimitedBody) (chunks : List Bytes)
    (sent : Nat) : Prop where
  running : Running body
  count : body.n = sent
  length_sent : chunks.flatten.length = sent
  limit_le : body.limit ≤ budget
  parts : chunks.flatten ++ body.src.content = whole

variable {budget sent : Nat} {body : LimitedBody} {chunks : List Bytes}

theorem Turn.length (h : Turn whole budget body chunks sent) :
    whole.length = sent + body.src.content.length := by
  rw [← h.parts, length_append, h.length_sent]

/-- The budget is spent, and one more read tells whether the body was longer. -/
theorem Turn.probe (h : Turn whole budget body chunks sent) (hspent : budget - sent = 0) :
    Delivered whole body.src.ending body.limit (whole.length = budget ∧ body.src.stalls = true)
      { chunks := chunks, truncated := !(body.read 1).1.1.isEmpty
        err := notEOF (body.read 1).1.2, body := (body.read 1).2 } := by
  have hlen := h.length
  obtain ⟨hrun, hn, hsent, hlimit, hwhole⟩ := h
  have hwithin := hrun.within
  have hfirst : chunks.flatten = whole.take body.limit := by
    rw [← hwhole, show body.limit = chunks.flatten.length by omega, take_left]
  have hread := LimitedBody.read_cases hrun Nat.one_pos
  generalize body.read 1 = r at hread ⊢
  cases hread with
  | past hover htruncated => exact .cut (by omega) hfirst htruncated
  | @more data body' hn' hlimit' _ _ _ hstalls hrunning =>
    have hle := hrunning.within
    have hnil : data = [] := length_eq_zero_iff.mp (by omega)
    refine .clean (fun hfits => .inr ⟨by omega, ?_⟩) hfirst ⟨by rw [hnil]; rfl, rfl⟩
      ⟨hrunning.truncated, hrunning.readErr⟩
    rw [hstalls, if_pos (length_eq_zero_iff.mp (by omega))]
  | eof hfits hending htruncated hreadErr =>
    have hnil : body.src.content = [] := length_eq_zero_iff.mp (by omega)
    exact .clean (fun _ => .inl hending) hfirst ⟨by rw [hnil]; rfl, rfl⟩ ⟨htruncated, hreadErr⟩
  | failed e hfits hending hstalls htruncated hreadErr =>
    have hnil : body.src.content = [] := length_eq_zero_iff.mp (by omega)
    refine .broken e (by omega) hending (fun hlost => ?_) ?_ (by rw [hnil]; rfl) rfl
      ⟨htruncated, hreadErr⟩
    · rw [hstalls] at hlost
      cases hlost.2
    · rw [← hwhole, hnil, append_nil]

theorem streamBody_delivers (hchunk : 0 < chunkBytes) (turns : Nat)
    (h : Turn whole budget body chunks sent) (hturns : body.src.size < turns) :
    ∃ s, streamBody chunkBytes budget turns body chunks sent = some s ∧
      Delivered whole body.src.ending body.limit
        (whole.length = budget ∧ body.src.stalls = true) s := by
  induction turns generalizing body chunks sent with
  | zero => omega
  | succ turns ih =>
    unfold streamBody
    by_cases hprobe : budget - sent = 0
    · rw [if_pos hprobe]
      exact ⟨_, rfl, h.probe hprobe⟩
    rw [if_neg hprobe]
    have hlen := h.length
    obtain ⟨hrun, hn, hsent, hlimit, hwhole⟩ := h
    have hwithin := hrun.within
    have hread := LimitedBody.read_cases hrun (p := min chunkBytes (budget - sent)) (by omega)
    generalize body.read (min chunkBytes (budget - sent)) = r at hread
    cases hread with
    | past hover htruncated =>
      refine ⟨_, rfl, .cut (by omega) ?_ htruncated⟩
      simp only [flatten_push]
      have hsentAll : chunks.flatten.take body.limit = chunks.flatten :=
        take_of_length_le (by omega)
      rw [← hwhole, take_append, hsentAll, hsent, hn]
    | @more data body' hn' hlimit' hcontent hending hsize hstalls hrunning =>
      simp only
      have hturn : Turn whole budget body' (if data.isEmpty then chunks else chunks ++ [data])
          (sent + data.length) :=
        ⟨hrunning, by omega, by rw [flatten_push, length_append, hsent], by omega,
          by rw [flatten_push, append_assoc, hcontent, hwhole]⟩
      obtain ⟨s, hs, hdelivered⟩ := ih hturn (by omega)
      -- a body that is at its end before the budget is spent is never probed
      have hlost : (whole.length = budget ∧ body'.src.stalls = true) =
          (whole.length = budget ∧ body.src.stalls = true) := by
        refine propext (and_congr_right fun hbudget => ?_)
        rw [hstalls, if_neg]
        rintro hnil
        rw [hnil, length_nil] at hlen
        omega
      rw [hending, hlimit', hlost] at hdelivered
      exact ⟨s, hs, hdelivered⟩
    | eof hfits hending htruncated hreadErr =>
      refine ⟨_, rfl, .clean (fun _ => .inl hending) ?_ ⟨rfl, rfl⟩ ⟨htruncated, hreadErr⟩⟩
      rw [flatten_push, hwhole, take_of_length_le (by omega)]
    | failed e hfits hending hstalls htruncated hreadErr =>
      refine ⟨_, rfl, .broken e (by omega) hending (fun hlost => ?_) ?_ rfl rfl
        ⟨htruncated, hreadErr⟩⟩
      · rw [hstalls] at hlost
        cases hlost.2
      · rw [flatten_push, hwhole]

/-! ## The reader of the hub -/

/-- The error that a body ends with after this trail. -/
def termOf (t : Trail) : TunnelErr :=
  if t.error ≠ "" then .upstream t.error else if t.truncated then .tooLarge else .eof

/-- A reader that still has `left` to give before this trail. -/
structure Open (t : Trail) (left : Bytes) (b : BodyReader) : Prop where
  stream : ∃ cs : List Bytes, b.stream = cs.map .data ++ [.trail t] ∧
    left = b.pending ++ cs.flatten ∧ b.received + cs.flatten.length ≤ b.budget
  term : b.term = none
  err : b.trailErr = none

/-- A reader that has given everything before this trail. -/
structure Ended (t : Trail) (b : BodyReader) : Prop where
  term : b.term = some (termOf t)
  pending : b.pending = []
  truncated : b.trailTruncated = t.truncated
  err : b.trailErr = if t.error ≠ "" then some (.upstream t.error) else none

variable {b : BodyReader} {t : Trail}

theorem absorbTrail_ended (hpending : b.pending = []) (herr : b.trailErr = none) :
    Ended t (b.absorbTrail t) := by
  unfold BodyReader.absorbTrail
  by_cases herror : t.error ≠ ""
  · simp only [if_pos herror]
    exact ⟨by simp [termOf, herror], hpending, rfl, by simp [herror]⟩
  simp only [if_neg herror]
  split
  · rename_i htruncated
    exact ⟨by simp [termOf, herror, htruncated], hpending, rfl, by simp [herr, herror]⟩
  · rename_i htruncated
    exact ⟨by simp [termOf, herror, htruncated], hpending, rfl, by simp [herr, herror]⟩

theorem fill_ready (h : b.ready = true) (l : List Chunk) :
    BodyReader.fill l b = { b with stream := l } := by
  cases l <;> simp [BodyReader.fill, h]

/-- The pulls of a read stop at the first chunk with bytes, or at the trail. -/
theorem fill_open (cs : List Bytes) (hpending : b.pending = []) (hterm : b.term = none)
    (herr : b.trailErr = none) (hfits : b.received + cs.flatten.length ≤ b.budget) :
    (cs.flatten ≠ [] ∧ (BodyReader.fill (cs.map .data ++ [.trail t]) b).pending ≠ [] ∧
      Open t cs.flatten (BodyReader.fill (cs.map .data ++ [.trail t]) b)) ∨
    (cs.flatten = [] ∧ Ended t (BodyReader.fill (cs.map .data ++ [.trail t]) b)) := by
  have hnotReady : b.ready = false := by simp [BodyReader.ready, hpending, hterm]
  induction cs generalizing b with
  | nil =>
    right
    have hended := absorbTrail_ended (t := t) hpending herr
    have hready : (b.absorbTrail t).ready = true := by simp [BodyReader.ready, hended.term]
    simp only [map_nil, nil_append, BodyReader.fill, hnotReady, Bool.false_eq_true,
      if_false, BodyReader.pull, hready, if_true, flatten_nil, true_and]
    exact ⟨hended.term, hended.pending, hended.truncated, hended.err⟩
  | cons d cs ih =>
    rw [flatten_cons, length_append] at hfits
    simp only [map_cons, cons_append, BodyReader.fill, hnotReady, Bool.false_eq_true,
      if_false, BodyReader.pull]
    by_cases hd : d = []
    · subst hd
      simp only [isEmpty_nil, if_true, flatten_cons, nil_append]
      exact ih hpending hterm herr (by simpa using hfits) hnotReady
    · left
      rw [if_neg (by simpa using hd), if_neg (by omega)]
      have hready : BodyReader.ready { b with pending := d, received := b.received + d.length }
          = true := by
        simp [BodyReader.ready, hd]
      rw [fill_ready hready, flatten_cons]
      refine ⟨?_, hd, ⟨cs, rfl, rfl, ?_⟩, hterm, herr⟩
      · intro hnil
        exact hd (append_eq_nil_iff.mp hnil).1
      · simp only
        omega

inductive HubRead (t : Trail) (left : Bytes) (p : Nat) :
    (Bytes × Option TunnelErr) × BodyReader → Prop
  | more {data rest : Bytes} {b' : BodyReader} (hdata : data ≠ []) (hlen : data.length ≤ p)
    (hleft : data ++ rest = left) (hopen : Open t rest b') : HubRead t left p ((data, none), b')
  | last {b' : BodyReader} (hleft : left = []) (hended : Ended t b') :
    HubRead t left p (([], some (termOf t)), b')

variable {left : Bytes}

/-- A read from a reader with bytes at hand. -/
theorem HubRead.of_pending (hp : 0 < p) (h : Open t left b) (hpending : b.pending ≠ []) :
    HubRead t left p ((b.pending.take p, none), { b with pending := b.pending.drop p }) := by
  obtain ⟨cs, hstream, hleft, hfits⟩ := h.stream
  refine .more ?_ (length_take_le _ _) ?_ ⟨⟨cs, hstream, rfl, hfits⟩, h.term, h.err⟩
  · intro hnil
    have hzero := congrArg List.length hnil
    have hpos := length_pos_of_ne_nil hpending
    rw [length_take, length_nil] at hzero
    omega
  · rw [hleft, ← append_assoc, take_append_drop]

theorem BodyReader.read_cases (hp : 0 < p) (h : Open t left b) : HubRead t left p (b.read p) := by
  obtain ⟨cs, hstream, hleft, hfits⟩ := h.stream
  unfold BodyReader.read
  simp only [if_neg (Nat.pos_iff_ne_zero.mp hp)]
  by_cases hpending : b.pending = []
  · rw [hpending, nil_append] at hleft
    subst hleft
    rw [hstream]
    rcases fill_open cs hpending h.term h.err hfits with ⟨_, hne, hopen⟩ | ⟨hnil, hended⟩
    · rw [if_neg (by simpa using hne)]
      exact .of_pending hp hopen hne
    · rw [if_pos (by simp [hended.pending]), hended.term]
      exact .last hnil hended
  · have hready : b.ready = true := by simp [BodyReader.ready, hpending]
    rw [fill_ready hready]
    simp only
    rw [if_neg (by simpa using hpending)]
    exact .of_pending hp h hpending

/-! ## The read of the proxy -/

/-- The error that `io.ReadAll` returns. -/
def readAllErr : TunnelErr → Option TunnelErr
  | .eof => none
  | e => some e

variable {sizes : Nat → Nat}

/-- `io.ReadAll` under a cap that the body does not reach brings all of the body. -/
theorem readAll_open (hsizes : ∀ i, 0 < sizes i) (turns i : Nat) (c : CapReader) (left acc : Bytes)
    (hopen : Open t left c.r) (hhit : c.hit = false) (hroom : left.length < c.remaining)
    (hturns : left.length < turns) :
    ∃ c', readAll sizes turns i c acc = some ((acc ++ left, readAllErr (termOf t)), c') ∧
      c'.hit = false ∧ Ended t c'.r := by
  induction turns generalizing i c left acc with
  | zero => omega
  | succ turns ih =>
    unfold readAll CapReader.read
    have hremaining : c.remaining ≠ 0 := by omega
    simp only [if_neg hremaining]
    have hread := BodyReader.read_cases (p := min (sizes i) c.remaining)
      (by have := hsizes i; omega) hopen
    generalize c.r.read (min (sizes i) c.remaining) = r at hread
    cases hread with
    | @more data rest b' hdata hlen hleft hopen' =>
      have hpos := length_pos_of_ne_nil hdata
      subst hleft
      rw [length_append] at hroom hturns
      obtain ⟨c', hc', hrest⟩ := ih (i + 1)
        { c with r := b', remaining := c.remaining - data.length } rest (acc ++ data) hopen' hhit
        (by simp only; omega) (by omega)
      refine ⟨c', ?_, hrest⟩
      simp only
      rw [hc', append_assoc]
    | last hleft hended =>
      subst hleft
      simp only [append_nil]
      cases hterm : termOf t with
      | eof | tooLarge | upstream | protocol => exact ⟨_, rfl, hhit, hended⟩

/-- What `Proxy.Do` makes of a body within its budget, by the trail. -/
theorem doBody_open (hsizes : ∀ i, 0 < sizes i) {maxBytes : Nat} (hopen : Open t left b)
    (hfits : left.length ≤ maxBytes) :
    (t.error ≠ "" → doBody sizes maxBytes b = some (none, some .upstream)) ∧
    (t = ⟨false, ""⟩ → doBody sizes maxBytes b = some (some ⟨left, false⟩, none)) := by
  obtain ⟨c', hread, hhit, hended⟩ := readAll_open hsizes (maxBytes + 2) 0
    { r := b, remaining := maxBytes + 1, hit := false } left [] hopen rfl (by simp only; omega)
    (by omega)
  unfold doBody readCapped
  rw [hread]
  simp only [Option.map_some, nil_append, if_neg (Nat.not_lt.mpr hfits)]
  constructor
  · intro herror
    have hterm : termOf t = .upstream t.error := by simp [termOf, herror]
    simp [hterm, readAllErr, hhit, wrapCallError]
  · rintro rfl
    have hterm : termOf ⟨false, ""⟩ = .eof := rfl
    have htruncated := hended.truncated
    have herr := hended.err
    simp only [ne_eq, not_true_eq_false, if_false] at herr htruncated
    simp [hterm, readAllErr, htruncated, herr]

/-! ## From end to end -/

/-- What the hub returns for the bytes `whole` and their end: an error without a body, or the body
up to the limit without an error. -/
inductive Returned (whole : Bytes) (ending : Ending) (limit : Nat) (lost : Prop) :
    Option Result × Option DoErr → Prop
  | failed (h : whole.length ≤ limit → ∃ e, ending = .failed e ∧ e.text ≠ "" ∧ ¬lost) :
    Returned whole ending limit lost (none, some .upstream)
  | passed (h : whole.length ≤ limit →
      ending = .eof ∨ lost ∨ ∃ e, ending = .failed e ∧ e.text = "") :
    Returned whole ending limit lost (some ⟨whole.take limit, false⟩, none)

/-- The trail of the spoke decides what the hub returns. -/
theorem Delivered.returned {ending : Ending} {limit budget : Nat} {lost : Prop} {s : Streamed}
    (h : Delivered whole ending limit lost s) (hsizes : ∀ i, 0 < sizes i)
    (hlimit : limit ≤ budget) : ∃ r, doBody sizes budget
        (newBodyReader (s.chunks.map .data ++ [.trail (trailOf s)]) budget) = some r ∧
      Returned whole ending limit lost r := by
  have hchunks : s.chunks.flatten = whole.take limit := by
    cases h with
    | cut _ hchunks | clean _ hchunks => exact hchunks
    | broken _ hfits _ _ hchunks => rw [hchunks, take_of_length_le hfits]
  have hlen : s.chunks.flatten.length ≤ budget := by
    rw [hchunks, length_take]
    omega
  have hopen : Open (trailOf s) s.chunks.flatten
      (newBodyReader (s.chunks.map .data ++ [.trail (trailOf s)]) budget) :=
    ⟨⟨s.chunks, rfl, rfl, by simp only [newBodyReader]; omega⟩, rfl, rfl⟩
  obtain ⟨herror, hclean⟩ := doBody_open hsizes hopen hlen
  rw [hchunks] at hclean
  cases h with
  | cut hover _ htruncated =>
    refine ⟨_, herror ?_, .failed fun hfits => absurd hfits (Nat.not_le.mpr hover)⟩
    simp [trailOf, LimitedBody.trailerErr, htruncated, BodyErr.text]
  | clean hend _ hanswers hbody =>
    refine ⟨_, hclean ?_, .passed fun hfits => (hend hfits).imp_right .inl⟩
    simp [trailOf, LimitedBody.trailerErr, hanswers, hbody]
  | broken e hfits hending hkept _ htruncated herr hbody =>
    by_cases htext : e.text = ""
    · refine ⟨_, hclean ?_, .passed fun _ => .inr (.inr ⟨e, hending, htext⟩)⟩
      have hsilent : (s.err.map BodyErr.text).getD "" = "" := by
        rw [herr, notEOF, Option.filter_some]
        split <;> simp [BodyErr.text, htext]
      simp [trailOf, LimitedBody.trailerErr, htruncated, hbody, hsilent, BodyErr.text, htext]
    · refine ⟨_, herror ?_, .failed fun _ => ⟨e, hending, htext, hkept⟩⟩
      simp [trailOf, LimitedBody.trailerErr, hbody, BodyErr.text, htext]

theorem proxyDo_returned (hsizes : ∀ i, 0 < sizes i) (hchunk : 0 < chunkBytes) (budget cap : Nat)
    (u : Upstream) : ∃ r, proxyDo sizes chunkBytes budget cap u = some r ∧
      Returned u.content u.ending (min budget cap)
        (u.content.length = budget ∧ u.stalls = true) r := by
  have hfirst : Turn u.content budget (newLimitedBody u budget cap) [] 0 :=
    ⟨⟨rfl, rfl, Nat.zero_le _⟩, rfl, rfl, Nat.min_le_left _ _, rfl⟩
  have hturns : u.size < u.size + 2 := by omega
  obtain ⟨s, hs, hdelivered⟩ := streamBody_delivers hchunk (u.size + 2) hfirst hturns
  obtain ⟨r, hr, hreturned⟩ := hdelivered.returned hsizes (Nat.min_le_left budget cap)
  refine ⟨r, ?_, hreturned⟩
  unfold proxyDo proxyStream
  rw [hs]
  exact hr

/-- What the caller is promised of a body under a limit. -/
structure Faithful (u : Upstream) (limit : Nat) (r : Option Result × Option DoErr) : Prop where
  clean : r.2 = none ↔ u.ending = .eof ∧ u.content.length ≤ limit
  body : r.2 = none → r.1 = some { body := u.content, truncated := false }
  above : limit < u.content.length →
    r = (some { body := u.content.take limit, truncated := true }, some .tooLarge)
  failed : ∀ e, u.ending = .failed e → u.content.length ≤ limit → r.2 = some .upstream

/-- The bodies within the limit, with a failure that the hub can learn of: it has a text, and if the
body fills the budget, then it is not behind a read that brings neither bytes nor the end. -/
def Upstream.Reported (u : Upstream) (budget cap : Nat) : Prop :=
  u.content.length ≤ min budget cap ∧ ∀ e, u.ending = .failed e →
    e.text ≠ "" ∧ (u.content.length = budget → u.stalls = false)

/-- A body above the limit is never returned as promised: it should be too large, and is a failure
of the upstream, or no error at all. -/
theorem proxy_do_is_faithful_iff_the_end_is_reported (sizes : Nat → Nat)
    (hsizes : ∀ i, 0 < sizes i) (chunkBytes : Nat) (hchunk : 0 < chunkBytes) (budget cap : Nat)
    (u : Upstream) : (∃ r, proxyDo sizes chunkBytes budget cap u = some r ∧
      Faithful u (min budget cap) r) ↔ u.Reported budget cap := by
  obtain ⟨r, hr, hreturned⟩ := proxyDo_returned hsizes hchunk budget cap u
  rw [hr]
  simp only [Option.some.injEq, exists_eq_left']
  constructor
  · intro h
    have hfits : u.content.length ≤ min budget cap := by
      by_contra hover
      have := h.above (Nat.not_le.mp hover)
      cases hreturned <;> cases this
    refine ⟨hfits, fun e he => ?_⟩
    cases hreturned with
    | failed hfailed =>
      obtain ⟨e', he', htext, hkept⟩ := hfailed hfits
      rw [he] at he'
      cases he'
      exact ⟨htext, fun hbudget => Bool.eq_false_iff.mpr fun hstalls => hkept ⟨hbudget, hstalls⟩⟩
    | passed =>
      have heof := (h.clean.mp rfl).1
      rw [he] at heof
      cases heof
  · rintro ⟨hfits, hreported⟩
    have hnot : ¬ min budget cap < u.content.length := Nat.not_lt.mpr hfits
    cases hreturned with
    | failed hfailed =>
      obtain ⟨e, he, -⟩ := hfailed hfits
      refine ⟨⟨nofun, fun h => ?_⟩, nofun, fun h => absurd h hnot, fun _ _ _ => rfl⟩
      rw [he] at h
      cases h.1
    | passed hpassed =>
      have heof : u.ending = .eof := by
        cases he : u.ending with
        | eof => rfl
        | failed e =>
          obtain ⟨htext, hkept⟩ := hreported e he
          rcases hpassed hfits with h | ⟨hbudget, hstalls⟩ | ⟨e', he', htext'⟩
          · exact he.symm.trans h
          · rw [hkept hbudget] at hstalls
            cases hstalls
          · rw [he] at he'
            cases he'
            exact absurd htext' htext
      rw [take_of_length_le hfits]
      refine ⟨⟨fun _ => ⟨heof, hfits⟩, fun _ => rfl⟩, fun _ => rfl, fun h => absurd h hnot,
        fun e he => ?_⟩
      rw [heof] at he
      cases he

/-- Four bytes under a limit of four, with empty reads between them and behind them. -/
def fourBytes : Upstream := { pieces := [[1, 2, 3], [], [4], []], ending := .eof, eager := false }

theorem proxy_do_is_faithful_at_the_limit : ∃ r, proxyDo (fun _ => 3) 2 4 10 fourBytes = some r ∧
      r.1 = some { body := [1, 2, 3, 4], truncated := false } := by
  obtain ⟨r, hr, hfaithful⟩ := (proxy_do_is_faithful_iff_the_end_is_reported (fun _ => 3)
    (fun _ => by decide) 2 (by decide) 4 10 fourBytes).mpr ⟨by decide, fun e h => by cases h⟩
  exact ⟨r, hr, hfaithful.body (hfaithful.clean.mpr ⟨rfl, by decide⟩)⟩

/-- Five bytes under a limit of four: the caller learns that the upstream has failed, and
gets no body. -/
theorem a_body_above_the_limit_is_reported_as_a_failure : proxyDo (fun _ => 512) 65536 4 10
      { pieces := [[1, 2, 3, 4, 5]], ending := .eof, eager := false } =
        some (none, some .upstream) := by
  decide

end prom_fleet.proxybody
