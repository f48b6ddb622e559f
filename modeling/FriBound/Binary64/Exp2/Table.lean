/-!
# Powers of two with a fractional exponent

`fractionalPowers` holds, for each `i` below 128, the bit patterns of a number `s` near `2 ^ (i /
128)` and of the small relative error `t` for which `s * (1 + t)` is that power to about twice the
precision of the format.
-/

namespace FriBound.Binary64

/-- `(s, t)` with `s * (1 + t) ≈ 2 ^ (i / 128)`, as bit patterns. -/
def fractionalPowers : Vector (Nat × Nat) 128 := #v[
  (0x3ff0000000000000, 0x0000000000000000),
  (0x3ff0163da9fb3335, 0x3c9b3b4f1a88bf6e),
  (0x3ff02c9a3e778061, 0xbc7160139cd8dc5d),
  (0x3ff04315e86e7f85, 0xbc905e7a108766d1),
  (0x3ff059b0d3158574, 0x3c8cd2523567f613),
  (0x3ff0706b29ddf6de, 0xbc8bce8023f98efa),
  (0x3ff0874518759bc8, 0x3c60f74e61e6c861),
  (0x3ff09e3ecac6f383, 0x3c90a3e45b33d399),
  (0x3ff0b5586cf9890f, 0x3c979aa65d837b6d),
  (0x3ff0cc922b7247f7, 0x3c8eb51a92fdeffc),
  (0x3ff0e3ec32d3d1a2, 0x3c3ebe3d702f9cd1),
  (0x3ff0fb66affed31b, 0xbc6a033489906e0b),
  (0x3ff11301d0125b51, 0xbc9556522a2fbd0e),
  (0x3ff12abdc06c31cc, 0xbc5080ef8c4eea55),
  (0x3ff1429aaea92de0, 0xbc91c923b9d5f416),
  (0x3ff15a98c8a58e51, 0x3c80d3e3e95c55af),
  (0x3ff172b83c7d517b, 0xbc801b15eaa59348),
  (0x3ff18af9388c8dea, 0xbc8f1ff055de323d),
  (0x3ff1a35beb6fcb75, 0x3c8b898c3f1353bf),
  (0x3ff1bbe084045cd4, 0xbc96d99c7611eb26),
  (0x3ff1d4873168b9aa, 0x3c9aecf73e3a2f60),
  (0x3ff1ed5022fcd91d, 0xbc8fe782cb86389d),
  (0x3ff2063b88628cd6, 0x3c8a6f4144a6c38d),
  (0x3ff21f49917ddc96, 0x3c807a05b0e4047d),
  (0x3ff2387a6e756238, 0x3c968efde3a8a894),
  (0x3ff251ce4fb2a63f, 0x3c875e18f274487d),
  (0x3ff26b4565e27cdd, 0x3c80472b981fe7f2),
  (0x3ff284dfe1f56381, 0xbc96b87b3f71085e),
  (0x3ff29e9df51fdee1, 0x3c82f7e16d09ab31),
  (0x3ff2b87fd0dad990, 0xbc3d219b1a6fbffa),
  (0x3ff2d285a6e4030b, 0x3c8b3782720c0ab4),
  (0x3ff2ecafa93e2f56, 0x3c6e149289cecb8f),
  (0x3ff306fe0a31b715, 0x3c834d754db0abb6),
  (0x3ff32170fc4cd831, 0x3c864201e2ac744c),
  (0x3ff33c08b26416ff, 0x3c8fdd395dd3f84a),
  (0x3ff356c55f929ff1, 0xbc86a3803b8e5b04),
  (0x3ff371a7373aa9cb, 0xbc924aedcc4b5068),
  (0x3ff38cae6d05d866, 0xbc9907f81b512d8e),
  (0x3ff3a7db34e59ff7, 0xbc71d1e83e9436d2),
  (0x3ff3c32dc313a8e5, 0xbc991919b3ce1b15),
  (0x3ff3dea64c123422, 0x3c859f48a72a4c6d),
  (0x3ff3fa4504ac801c, 0xbc9312607a28698a),
  (0x3ff4160a21f72e2a, 0xbc58a78f4817895b),
  (0x3ff431f5d950a897, 0xbc7c2c9b67499a1b),
  (0x3ff44e086061892d, 0x3c4363ed60c2ac11),
  (0x3ff46a41ed1d0057, 0x3c9666093b0664ef),
  (0x3ff486a2b5c13cd0, 0x3c6ecce1daa10379),
  (0x3ff4a32af0d7d3de, 0x3c93ff8e3f0f1230),
  (0x3ff4bfdad5362a27, 0x3c7690cebb7aafb0),
  (0x3ff4dcb299fddd0d, 0x3c931dbdeb54e077),
  (0x3ff4f9b2769d2ca7, 0xbc8f94340071a38e),
  (0x3ff516daa2cf6642, 0xbc87deccdc93a349),
  (0x3ff5342b569d4f82, 0xbc78dec6bd0f385f),
  (0x3ff551a4ca5d920f, 0xbc861246ec7b5cf6),
  (0x3ff56f4736b527da, 0x3c93350518fdd78e),
  (0x3ff58d12d497c7fd, 0x3c7b98b72f8a9b05),
  (0x3ff5ab07dd485429, 0x3c9063e1e21c5409),
  (0x3ff5c9268a5946b7, 0x3c34c7855019c6ea),
  (0x3ff5e76f15ad2148, 0x3c9432e62b64c035),
  (0x3ff605e1b976dc09, 0xbc8ce44a6199769f),
  (0x3ff6247eb03a5585, 0xbc8c33c53bef4da8),
  (0x3ff6434634ccc320, 0xbc845378892be9ae),
  (0x3ff6623882552225, 0xbc93cedd78565858),
  (0x3ff68155d44ca973, 0x3c5710aa807e1964),
  (0x3ff6a09e667f3bcd, 0xbc93b3efbf5e2228),
  (0x3ff6c012750bdabf, 0xbc6a12ad8734b982),
  (0x3ff6dfb23c651a2f, 0xbc6367efb86da9ee),
  (0x3ff6ff7df9519484, 0xbc80dc3d54e08851),
  (0x3ff71f75e8ec5f74, 0xbc781f647e5a3ecf),
  (0x3ff73f9a48a58174, 0xbc86ee4ac08b7db0),
  (0x3ff75feb564267c9, 0xbc8619321e55e68a),
  (0x3ff780694fde5d3f, 0x3c909ccb5e09d4d3),
  (0x3ff7a11473eb0187, 0xbc7b32dcb94da51d),
  (0x3ff7c1ed0130c132, 0x3c94ecfd5467c06b),
  (0x3ff7e2f336cf4e62, 0x3c65ebe1abd66c55),
  (0x3ff80427543e1a12, 0xbc88a1c52fb3cf42),
  (0x3ff82589994cce13, 0xbc9369b6f13b3734),
  (0x3ff8471a4623c7ad, 0xbc805e843a19ff1e),
  (0x3ff868d99b4492ed, 0xbc94d450d872576e),
  (0x3ff88ac7d98a6699, 0x3c90ad675b0e8a00),
  (0x3ff8ace5422aa0db, 0x3c8db72fc1f0eab4),
  (0x3ff8cf3216b5448c, 0xbc65b6609cc5e7ff),
  (0x3ff8f1ae99157736, 0x3c7bf68359f35f44),
  (0x3ff9145b0b91ffc6, 0xbc93091fa71e3d83),
  (0x3ff93737b0cdc5e5, 0xbc5da9b88b6c1e29),
  (0x3ff95a44cbc8520f, 0xbc6c23f97c90b959),
  (0x3ff97d829fde4e50, 0xbc92434322f4f9aa),
  (0x3ff9a0f170ca07ba, 0xbc85ca6cd7668e4b),
  (0x3ff9c49182a3f090, 0x3c71affc2b91ce27),
  (0x3ff9e86319e32323, 0x3c6dd235e10a73bb),
  (0x3ffa0c667b5de565, 0xbc87c50422622263),
  (0x3ffa309bec4a2d33, 0x3c8b1c86e3e231d5),
  (0x3ffa5503b23e255d, 0xbc91bbd1d3bcbb15),
  (0x3ffa799e1330b358, 0x3c90cc319cee31d2),
  (0x3ffa9e6b5579fdbf, 0x3c8469846e735ab3),
  (0x3ffac36bbfd3f37a, 0xbc82dfcd978e9db4),
  (0x3ffae89f995ad3ad, 0x3c8c1a7792cb3387),
  (0x3ffb0e07298db666, 0xbc907b8f4ad1d9fa),
  (0x3ffb33a2b84f15fb, 0xbc55c3d956dcaeba),
  (0x3ffb59728de5593a, 0xbc90a40e3da6f640),
  (0x3ffb7f76f2fb5e47, 0xbc68d6f438ad9334),
  (0x3ffba5b030a1064a, 0xbc91eee26b588a35),
  (0x3ffbcc1e904bc1d2, 0x3c74ffd70a5fddcd),
  (0x3ffbf2c25bd71e09, 0xbc91bdfbfa9298ac),
  (0x3ffc199bdd85529c, 0x3c736eae30af0cb3),
  (0x3ffc40ab5fffd07a, 0x3c8ee3325c9ffd94),
  (0x3ffc67f12e57d14b, 0x3c84e08fd10959ac),
  (0x3ffc8f6d9406e7b5, 0x3c63cdaf384e1a67),
  (0x3ffcb720dcef9069, 0x3c676b2c6c921968),
  (0x3ffcdf0b555dc3fa, 0xbc808a1883ccb5d2),
  (0x3ffd072d4a07897c, 0xbc8fad5d3ffffa6f),
  (0x3ffd2f87080d89f2, 0xbc900dae3875a949),
  (0x3ffd5818dcfba487, 0x3c74a385a63d07a7),
  (0x3ffd80e316c98398, 0xbc82919e2040220f),
  (0x3ffda9e603db3285, 0x3c8e5a50d5c192ac),
  (0x3ffdd321f301b460, 0x3c843a59ac016b4b),
  (0x3ffdfc97337b9b5f, 0xbc82d52107b43e1f),
  (0x3ffe264614f5a129, 0xbc892ab93b470dc9),
  (0x3ffe502ee78b3ff6, 0x3c74b604603a88d3),
  (0x3ffe7a51fbc74c83, 0x3c83c5ec519d7271),
  (0x3ffea4afa2a490da, 0xbc8ff7128fd391f0),
  (0x3ffecf482d8e67f1, 0xbc8dae98e223747d),
  (0x3ffefa1bee615a27, 0x3c8ec3bc41aa2008),
  (0x3fff252b376bba97, 0x3c842b94c3a9eb32),
  (0x3fff50765b6e4540, 0x3c8a64a931d185ee),
  (0x3fff7bfdad9cbe14, 0xbc8e37bae43be3ed),
  (0x3fffa7c1819e90d8, 0x3c77893b4d91cd9d),
  (0x3fffd3c22b8f71f1, 0x3c5305c14160cc89)]

end FriBound.Binary64
