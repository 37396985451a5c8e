import VisitorCounter.Alignment
import VisitorCounter.Handler

/-!
# The response to a visit

From the count on the handler renders the image, encodes it as a PNG and builds
the response.  The image in the body can be decoded, and then shows the count of
the `x-count` header and no other number.

## Main Definitions

* `ShowsCount`: a response is the image of a count
* `Png.reference`: a format that keeps what is relied on of the `png` crate

## Main Results

* `decode_toPngBytes`: an encoded image is decoded as it was, its width included
* `exists_toPngBytes`: which images are encoded
* `respond_round_trip`: the responses to a count
-/

namespace VisitorCounter

open Cbor Font

/-! ### Encoding the image -/

section Encoding

variable {png : Png} {render : Render} {bytes : List UInt8}

/-- **An encoded image is decoded as it was.**  The casts to `u32` lose nothing,
because the encoder checks the size of the pixels. -/
theorem decode_toPngBytes (hheight : render.height = 18)
    (hsize : render.pixels.size = render.width * render.height * 4)
    (h : render.toPngBytes png = .ok bytes) :
    render.width < 2 ^ 32 ∧
      png.decode bytes = some (UInt32.ofNat render.width, 18, render.pixels) := by
  have hencoded := png.size_of_encode _ _ _ _ h
  have hdecode := png.decode_encode _ _ _ _ h
  have hwidth : (UInt32.ofNat render.width).toNat = render.width % 2 ^ 32 := UInt32.toNat_ofNat'
  rw [hheight] at hencoded hdecode hsize
  rw [hsize, hwidth, show (UInt32.ofNat 18).toNat = 18 from rfl] at hencoded
  exact ⟨by omega, hdecode⟩

/-- An image that is not too large for a PNG is encoded. -/
theorem exists_toPngBytes (png : Png) (hheight : render.height = 18)
    (hsize : render.pixels.size = render.width * render.height * 4) (hpos : 0 < render.width)
    (hlarge : render.width < 2 ^ 31) : ∃ bytes, render.toPngBytes png = .ok bytes := by
  have hwidth : (UInt32.ofNat render.width).toNat = render.width := by
    rw [UInt32.toNat_ofNat', Nat.mod_eq_of_lt (by omega)]
  have heighteen : (UInt32.ofNat render.height).toNat = 18 := by
    rw [hheight]
    rfl
  refine png.exists_encode _ _ _ ?_ ?_ ?_ ?_ ?_
  · rwa [hwidth]
  · rwa [hwidth]
  · rw [heighteen]
    norm_num
  · rw [heighteen]
    norm_num
  · rw [hsize, hwidth, heighteen, hheight]

end Encoding

/-! ### The response -/

/-- The texts that the response has in its headers can be the values of headers. -/
def HeadersValid (crates : Crates) (countName : String) : Prop :=
  ∀ text ∈ ["no-cache", "image/png", countName], crates.validHeaderValue text = true

/-- A response is the image of a count, for a visitor of a counter. -/
structure ShowsCount (crates : Crates) (tag : UInt32) (countName : String)
    (count : UInt64) (response : Response) : Prop where
  status : response.status = 200
  /-- The body is a PNG that shows the number. -/
  image : ∃ bytes width pixels e, response.body = .binary bytes ∧
    crates.png.decode bytes = some (width, 18, pixels) ∧
    Depicts ⟨width.toNat, 18, pixels⟩ count.toNat e ∧
    response.headers.lookup "content-length" = some bytes.length.repr
  type : response.headers.lookup "content-type" = some "image/png"
  uncached : response.headers.lookup "cache-control" = some "no-cache"
  name : response.headers.lookup "x-count-name" = some countName
  count : response.headers.lookup "x-count" = some (u64ToString count)
  tag : response.headers.lookup "x-tag" = some tag.toNat.repr

section Response

variable {crates : Crates} {config : Config} {visitor : Visitor} {countName : String}
  {count : UInt64} {response : Response}

theorem mapError_eq_ok_iff {ε ε' α : Type} {x : Except ε α} {f : ε → ε'} {a : α} :
    x.mapError f = .ok a ↔ x = .ok a := by
  cases x <;> simp [Except.mapError]

/-- What the handler goes through to a response. -/
theorem respond_eq_ok_iff : respond crates config visitor countName count = .ok response ↔
    ∃ render bytes, renderSeparatedNumber count config.minWidth = .ok render ∧
      render.toPngBytes crates.png = .ok bytes ∧
      countResponse crates visitor countName count bytes = .ok response := by
  simp only [respond, bind_eq_ok_iff, mapError_eq_ok_iff]
  constructor
  · rintro ⟨render, hrender, bytes, hbytes, hresponse⟩
    exact ⟨render, bytes, hrender, hbytes, hresponse⟩
  · rintro ⟨render, bytes, hrender, hbytes, hresponse⟩
    exact ⟨render, hrender, bytes, hbytes, hresponse⟩

/-- A response that the handler builds is the image of the count. -/
theorem showsCount_of_respond
    (h : respond crates config visitor countName count = .ok response) :
    ShowsCount crates visitor.tag countName count response := by
  obtain ⟨⟨width, height, pixels⟩, bytes, hrender, hbytes, hresponse⟩ := respond_eq_ok_iff.mp h
  obtain ⟨e, hdepicts⟩ : ∃ e, Depicts ⟨width, height, pixels⟩ count.toNat e :=
    ⟨_, (depicts_of_render hrender).2⟩
  obtain ⟨hwidth, hdecode⟩ := decode_toPngBytes hdepicts.height_eq hdepicts.size_eq hbytes
  have hcast : (UInt32.ofNat width).toNat = width := by
    rw [UInt32.toNat_ofNat', Nat.mod_eq_of_lt hwidth]
  obtain rfl : height = 18 := hdepicts.height_eq
  rw [countResponse] at hresponse
  split at hresponse
  · obtain rfl := Except.ok.inj hresponse
    refine ⟨rfl, ⟨bytes, _, pixels, e, rfl, hdecode, ?_, rfl⟩, rfl, rfl, rfl, rfl, rfl⟩
    rw [hcast]
    exact hdepicts
  · cases hresponse

/-- The handler builds a response when the image is not too large for a PNG. -/
theorem exists_respond (hvalid : HeadersValid crates countName)
    (hwidth : totalWidth (digitCount count.toNat) config.minWidth.toNat < 2 ^ 31) :
    ∃ response, respond crates config visitor countName count = .ok response := by
  have hfits : ImageFits (digitCount count.toNat) config.minWidth.toNat := by
    unfold ImageFits
    omega
  obtain ⟨render, hrender, htotal, hdepicts⟩ := exists_render_of_fits hfits
  have hpos : 0 < render.width := by
    have hwithin := hdepicts.le_width
    have hglyph : glyphWidth = 8 := rfl
    omega
  obtain ⟨bytes, hbytes⟩ := exists_toPngBytes crates.png hdepicts.height_eq hdepicts.size_eq hpos
    (htotal.trans_lt hwidth)
  obtain ⟨response, hresponse⟩ : ∃ response,
      countResponse crates visitor countName count bytes = .ok response :=
    ⟨_, if_pos (List.all_eq_true.mpr hvalid)⟩
  exact ⟨response, respond_eq_ok_iff.mpr ⟨render, bytes, hrender, hbytes, hresponse⟩⟩

/-- Two responses with one body show one count. -/
theorem ShowsCount.count_eq {tag tag' : UInt32} {countName' : String} {count' : UInt64}
    {response' : Response} (h : ShowsCount crates tag countName count response)
    (h' : ShowsCount crates tag' countName' count' response')
    (hbody : response.body = response'.body) : count = count' := by
  obtain ⟨bytes, width, pixels, e, hbytes, hdecode, hdepicts, -⟩ := h.image
  obtain ⟨bytes', width', pixels', e', hbytes', hdecode', hdepicts', -⟩ := h'.image
  rw [hbytes, hbytes'] at hbody
  obtain rfl := Body.binary.inj hbody
  obtain ⟨rfl, -, rfl⟩ : width = width' ∧ (18 : UInt32) = 18 ∧ pixels = pixels' := by
    simpa using Option.some.inj (hdecode.symm.trans hdecode')
  exact UInt64.toNat_inj.mp (hdepicts.unique hdepicts').1

end Response

/-! ### Other crates, by example -/

/-- Width, height and pixels one after the other. -/
def Png.reference : Png where
  encode width height pixels :=
    if pixels.size = width.toNat * height.toNat * 4 then
      .ok (Codec.u32.encode width ++ (Codec.u32.encode height ++ pixels.toList))
    else .error (.message "the image has another size")
  decode bytes := do
    let (width, bytes) ← Codec.u32.decode bytes
    let (height, bytes) ← Codec.u32.decode bytes
    return (width, height, bytes.toArray)
  exists_encode _ _ _ _ _ _ _ hsize := ⟨_, if_pos hsize⟩
  size_of_encode width height pixels bytes h := by
    by_contra hsize
    rw [if_neg hsize] at h
    cases h
  decode_encode width height pixels bytes h := by
    split at h
    · obtain rfl := Except.ok.inj h
      rw [Codec.u32.decode_encode _ _ trivial]
      simp only [Option.bind_eq_bind, Option.bind_some]
      rw [Codec.u32.decode_encode _ _ trivial]
      rfl
    · cases h

/-- The characters of a header value that is a text. -/
def visibleAscii (text : String) : Bool :=
  text.toList.all fun c => c = '\t' ∨ 32 ≤ c.toNat ∧ c.toNat < 127

/-- The MD5 digests of the texts `1.2.3.4Mozilla/5.0` and `5.6.7.8Mozilla/5.0`. -/
def digestOfTwo (input : ByteArray) : Vector UInt8 16 :=
  if input.data.toList = "1.2.3.4Mozilla/5.0".toUTF8.data.toList then
    #v[196, 100, 249, 35, 238, 234, 193, 123, 141, 215, 225, 182, 32, 86, 86, 67]
  else #v[83, 60, 129, 88, 201, 148, 146, 140, 114, 41, 199, 36, 22, 97, 5, 14]

/-- Crates that do what the real ones do for these two visitors. -/
def Crates.reference : Crates where
  isBot := onlyIrbot
  md5 := digestOfTwo
  validHeaderValue := visibleAscii
  png := Png.reference

/-! ### Reading a response -/

/-- **The response to a visit can be read back.**  A response that the handler builds is
a PNG of the count, with the count, the name and the tag in its headers; the body alone
determines the count, whatever the visitors, the counters and the reserved widths were.
There is a response whenever the name can stand in a header and the image is narrower
than `2 ^ 31` pixels. -/
theorem respond_round_trip (crates : Crates) (config : Config) (visitor : Visitor)
    (countName : String) (count : UInt64) :
    (HeadersValid crates countName →
        totalWidth (digitCount count.toNat) config.minWidth.toNat < 2 ^ 31 →
          ∃ response, respond crates config visitor countName count = .ok response) ∧
      ∀ response, respond crates config visitor countName count = .ok response →
        ShowsCount crates visitor.tag countName count response ∧
          ∀ config' visitor' countName' count' response',
            respond crates config' visitor' countName' count' = .ok response' →
              response.body = response'.body → count = count' :=
  ⟨exists_respond, fun _ h => ⟨showsCount_of_respond h, fun _ _ _ _ _ h' hbody =>
    (showsCount_of_respond h).count_eq (showsCount_of_respond h') hbody⟩⟩

/-- A visit that is answered with the number `1234` on at least five digits. -/
theorem respond_round_trip_four_digits : ∃ response,
    respond Crates.reference ⟨"table", 5, ["default"]⟩ ⟨7, 0⟩ "default" 1234 = .ok response ∧
      ShowsCount Crates.reference 7 "default" 1234 response := by
  obtain ⟨hexists, hshows⟩ :=
    respond_round_trip Crates.reference ⟨"table", 5, ["default"]⟩ ⟨7, 0⟩ "default" 1234
  have hdigits := digitCount_le 1234
  obtain ⟨response, hresponse⟩ := hexists (by unfold HeadersValid; decide) <| by
    show 2 + max (digitCount (1234 : UInt64).toNat) 5 * 9 +
      3 * max (5 / 3) (digitCount (1234 : UInt64).toNat / 3) < 2 ^ 31
    omega
  exact ⟨response, hresponse, (hshows response hresponse).1⟩

end VisitorCounter
