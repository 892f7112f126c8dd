/-!
# The device prelude

Device source that every generated kernel is compiled with: number types, tensor
structures, and the helpers by which the threads of a block or the blocks of a
grid cooperate.
-/

namespace FusionCompiler
namespace Device
namespace Prelude

/-- Integer types and floating-point limits. -/
def types : List String := [
  "// Runtime support compiled ahead of every generated kernel.",
  "",
  "typedef signed char int8_t;",
  "typedef unsigned char uint8_t;",
  "typedef short int int16_t;",
  "typedef int int32_t;",
  "typedef unsigned int uint32_t;",
  "typedef long long int int64_t;",
  "typedef unsigned long long int uint64_t;",
  "typedef int64_t fuser_index_t;",
  "",
  "#define POS_INFINITY __int_as_float(0x7f800000)",
  "#define NEG_INFINITY __int_as_float(0xff800000)",
  "#define NAN_F __int_as_float(0x7fffffff)",
  ""]

/-- Half-precision numbers and their conversions. -/
def halves : List String := [
  "struct __align__(2) __half \x7b",
  "  __host__ __device__ __half() \x7b\x7d",
  "  unsigned short x;",
  "\x7d;",
  "",
  "__device__ __half __float2half(const float f) \x7b",
  "  __half val;",
  "  asm(\"\x7b  cvt.rn.f16.f32 %0, %1;\x7d\\n\" : \"=h\"(val.x) : \"f\"(f));",
  "  return val;",
  "\x7d",
  "",
  "__device__ float __half2float(const __half h) \x7b",
  "  float val;",
  "  asm(\"\x7b  cvt.f32.f16 %0, %1;\x7d\\n\" : \"=f\"(val) : \"h\"(h.x));",
  "  return val;",
  "\x7d",
  ""]

/-- Tensor arguments and vectors. -/
def tensors : List String := [
  "template <typename T, int N>",
  "struct Tensor \x7b",
  "  __device__ T& operator[](fuser_index_t ind) \x7b",
  "    return data[ind];",
  "  \x7d;",
  "",
  "  T* data;",
  "  fuser_index_t size[N];",
  "  fuser_index_t stride[N];",
  "\x7d;",
  "",
  "template <typename T>",
  "struct Tensor<T, 0> \x7b",
  "  __device__ T& operator[](fuser_index_t) \x7b",
  "    return *data;",
  "  \x7d;",
  "",
  "  T* data;",
  "\x7d;",
  "",
  "template <typename T, int N>",
  "struct alignas(sizeof(T) * N) Array \x7b",
  "  T array[N];",
  "  __device__ T& operator[](const unsigned i) \x7b",
  "    return array[i];",
  "  \x7d",
  "\x7d;",
  ""]

/-- Integer and element-wise helpers. -/
def arithmetic : List String := [
  "__device__ constexpr int64_t ceilDiv(int64_t a, int64_t b) \x7b",
  "  return (a + b - 1) / b;",
  "\x7d",
  "",
  "__device__ constexpr int64_t imax(int64_t a, int64_t b) \x7b",
  "  return a > b ? a : b;",
  "\x7d",
  "",
  "__device__ constexpr int64_t imin(int64_t a, int64_t b) \x7b",
  "  return a < b ? a : b;",
  "\x7d",
  "",
  "__device__ constexpr int64_t alignBufferSize(int64_t bytes, int64_t align) \x7b",
  "  return (bytes + align - 1) / align * align;",
  "\x7d",
  "",
  "__device__ float relu(float x) \x7b return x > 0.f ? x : 0.f; \x7d",
  "__device__ double relu(double x) \x7b return x > 0. ? x : 0.; \x7d",
  "__device__ int64_t relu(int64_t x) \x7b return x > 0 ? x : 0; \x7d",
  "__device__ int relu(int x) \x7b return x > 0 ? x : 0; \x7d",
  "",
  "__device__ float sigmoid(float x) \x7b return 1.f / (1.f + expf(-x)); \x7d",
  "__device__ double sigmoid(double x) \x7b return 1. / (1. + exp(-x)); \x7d",
  "",
  "__device__ float reciprocal(float x) \x7b return 1.f / x; \x7d",
  "__device__ double reciprocal(double x) \x7b return 1. / x; \x7d",
  "",
  "__device__ void block_sync() \x7b",
  "  __syncthreads();",
  "\x7d",
  ""]

/-- Linear indices over selected launch dimensions. -/
def selection : List String := [
  "// Linear index of `idx` over the dimensions selected by X, Y and Z.",
  "template <bool X, bool Y, bool Z>",
  "__device__ unsigned selectedIndex(const dim3& idx, const dim3& dim) \x7b",
  "  unsigned offset = 0;",
  "  if (Z) offset = idx.z;",
  "  if (Y) offset = offset * dim.y + idx.y;",
  "  if (X) offset = offset * dim.x + idx.x;",
  "  return offset;",
  "\x7d",
  "",
  "template <bool X, bool Y, bool Z>",
  "__device__ unsigned selectedSize(const dim3& dim) \x7b",
  "  return (X ? dim.x : 1) * (Y ? dim.y : 1) * (Z ? dim.z : 1);",
  "\x7d",
  "",
  "// Linear index of `idx` over the dimensions not selected.",
  "template <bool X, bool Y, bool Z>",
  "__device__ unsigned segmentIndex(const dim3& idx, const dim3& dim) \x7b",
  "  return selectedIndex<!X, !Y, !Z>(idx, dim);",
  "\x7d",
  "",
  "template <bool X, bool Y, bool Z>",
  "__device__ bool isFirstSelected(const dim3& idx) \x7b",
  "  return (!X || idx.x == 0) && (!Y || idx.y == 0) && (!Z || idx.z == 0);",
  "\x7d",
  "",
  "__device__ unsigned linearThread() \x7b",
  "  return threadIdx.x + blockDim.x * (threadIdx.y + blockDim.y * threadIdx.z);",
  "\x7d",
  "",
  "__device__ unsigned threadsPerBlock() \x7b",
  "  return blockDim.x * blockDim.y * blockDim.z;",
  "\x7d",
  ""]

/-- Reductions, broadcasts and running statistics of the threads of a block. -/
def blockCollectives : List String := [
  "// Reduce `inp_val` over the selected thread dimensions into `out` of the",
  "// first thread of each segment. Threads failing `read_pred` contribute",
  "// `init_val`.",
  "template <bool X, bool Y, bool Z, typename T, typename Func>",
  "__device__ void blockReduce(",
  "    T& out,",
  "    const T inp_val,",
  "    Func reduction_op,",
  "    const dim3& thread_idx,",
  "    const dim3& block_dim,",
  "    T* shared_mem,",
  "    bool read_pred,",
  "    bool write_pred,",
  "    T init_val) \x7b",
  "  const unsigned size = selectedSize<X, Y, Z>(block_dim);",
  "  const unsigned lane = selectedIndex<X, Y, Z>(thread_idx, block_dim);",
  "  const unsigned base = segmentIndex<X, Y, Z>(thread_idx, block_dim) * size;",
  "  shared_mem[base + lane] = read_pred ? inp_val : init_val;",
  "  block_sync();",
  "",
  "  unsigned np2 = 1;",
  "  while (np2 * 2 <= size) np2 *= 2;",
  "  if (lane < size - np2) \x7b",
  "    reduction_op(shared_mem[base + lane], shared_mem[base + lane + np2]);",
  "  \x7d",
  "  block_sync();",
  "  for (unsigned factor = np2 / 2; factor > 0; factor /= 2) \x7b",
  "    if (lane < factor) \x7b",
  "      reduction_op(shared_mem[base + lane], shared_mem[base + lane + factor]);",
  "    \x7d",
  "    block_sync();",
  "  \x7d",
  "  if (write_pred && lane == 0) \x7b",
  "    reduction_op(out, shared_mem[base]);",
  "  \x7d",
  "  block_sync();",
  "\x7d",
  "",
  "template <bool X, bool Y, bool Z, typename T>",
  "__device__ void blockBroadcast(T& out, const T& inp_val, T* shared_mem, bool read_pred, bool write_pred) \x7b",
  "  const unsigned size = selectedSize<X, Y, Z>(blockDim);",
  "  const unsigned base = segmentIndex<X, Y, Z>(threadIdx, blockDim);",
  "  if (read_pred && isFirstSelected<X, Y, Z>(threadIdx)) \x7b",
  "    shared_mem[base] = inp_val;",
  "  \x7d",
  "  block_sync();",
  "  if (write_pred) \x7b",
  "    out = shared_mem[base];",
  "  \x7d",
  "  block_sync();",
  "  (void)size;",
  "\x7d",
  "",
  "template <typename T, typename TN>",
  "__device__ void welfordCombine(T& a_avg, T& a_var, TN& a_n, const T b_avg, const T b_var, const TN b_n) \x7b",
  "  if (b_n == 0) \x7b",
  "    return;",
  "  \x7d",
  "  TN n = a_n + b_n;",
  "  T b_weight = T(b_n) / T(n);",
  "  T delta = b_avg - a_avg;",
  "  a_avg += delta * b_weight;",
  "  a_var += b_var + delta * delta * T(a_n) * b_weight;",
  "  a_n = n;",
  "\x7d",
  "",
  "template <bool X, bool Y, bool Z, typename T, typename TN>",
  "__device__ void blockWelford(",
  "    T& out_avg,",
  "    T& out_var,",
  "    TN& out_n,",
  "    const T in_avg,",
  "    const T in_var,",
  "    const TN in_n,",
  "    const dim3& thread_idx,",
  "    const dim3& block_dim,",
  "    char* shared_mem,",
  "    bool read_pred,",
  "    bool write_pred) \x7b",
  "  const unsigned threads = threadsPerBlock();",
  "  T* shared_avg = reinterpret_cast<T*>(shared_mem);",
  "  T* shared_var = shared_avg + threads;",
  "  TN* shared_n = reinterpret_cast<TN*>(shared_var + threads);",
  "",
  "  const unsigned size = selectedSize<X, Y, Z>(block_dim);",
  "  const unsigned lane = selectedIndex<X, Y, Z>(thread_idx, block_dim);",
  "  const unsigned base = segmentIndex<X, Y, Z>(thread_idx, block_dim) * size;",
  "  shared_avg[base + lane] = read_pred ? in_avg : T(0);",
  "  shared_var[base + lane] = read_pred ? in_var : T(0);",
  "  shared_n[base + lane] = read_pred ? in_n : TN(0);",
  "  block_sync();",
  "",
  "  unsigned np2 = 1;",
  "  while (np2 * 2 <= size) np2 *= 2;",
  "  if (lane < size - np2) \x7b",
  "    const unsigned peer = base + lane + np2;",
  "    welfordCombine(shared_avg[base + lane], shared_var[base + lane], shared_n[base + lane],",
  "                   shared_avg[peer], shared_var[peer], shared_n[peer]);",
  "  \x7d",
  "  block_sync();",
  "  for (unsigned factor = np2 / 2; factor > 0; factor /= 2) \x7b",
  "    if (lane < factor) \x7b",
  "      const unsigned peer = base + lane + factor;",
  "      welfordCombine(shared_avg[base + lane], shared_var[base + lane], shared_n[base + lane],",
  "                     shared_avg[peer], shared_var[peer], shared_n[peer]);",
  "    \x7d",
  "    block_sync();",
  "  \x7d",
  "  if (write_pred && lane == 0) \x7b",
  "    welfordCombine(out_avg, out_var, out_n, shared_avg[base], shared_var[base], shared_n[base]);",
  "  \x7d",
  "  block_sync();",
  "\x7d",
  ""]

/-- Arrival of the blocks of a grid. -/
def gridSynchronization : List String := [
  "// Block and thread dimensions reduced by a grid collective. XB, YB and ZB",
  "// select block dimensions, XT, YT and ZT thread dimensions.",
  "#define GRID_TEMPLATE bool XB, bool YB, bool ZB, bool XT, bool YT, bool ZT",
  "#define GRID_ARGS XB, YB, ZB, XT, YT, ZT",
  "",
  "// Wait until every block of the reduction segment has arrived.",
  "// Returns true in the last block to arrive.",
  "template <bool XB, bool YB, bool ZB>",
  "__device__ bool arriveAndCheckLast(int64_t* sync_flags) \x7b",
  "  __shared__ bool last;",
  "  __threadfence();",
  "  block_sync();",
  "  if (linearThread() == 0) \x7b",
  "    const unsigned segment = segmentIndex<XB, YB, ZB>(blockIdx, gridDim);",
  "    const int64_t blocks = selectedSize<XB, YB, ZB>(gridDim);",
  "    const int64_t old = atomicAdd(reinterpret_cast<unsigned long long*>(&sync_flags[segment]), 1ULL);",
  "    last = (old + 1) % blocks == 0;",
  "  \x7d",
  "  block_sync();",
  "  return last;",
  "\x7d",
  "",
  "// Every block of the segment returns once all of them have arrived.",
  "template <bool XB, bool YB, bool ZB>",
  "__device__ void gridSync(int64_t* sync_flags) \x7b",
  "  __threadfence();",
  "  block_sync();",
  "  if (linearThread() == 0) \x7b",
  "    const unsigned segment = segmentIndex<XB, YB, ZB>(blockIdx, gridDim);",
  "    const int64_t blocks = selectedSize<XB, YB, ZB>(gridDim);",
  "    const int64_t old = atomicAdd(reinterpret_cast<unsigned long long*>(&sync_flags[segment]), 1ULL);",
  "    const int64_t target = (old / blocks + 1) * blocks;",
  "    while (*reinterpret_cast<volatile int64_t*>(&sync_flags[segment]) < target) \x7b",
  "    \x7d",
  "  \x7d",
  "  block_sync();",
  "\x7d",
  ""]

/-- Reductions, broadcasts and running statistics across blocks. -/
def gridCollectives : List String := [
  "// Two-stage reduction across blocks: every block reduces its threads and",
  "// writes a partial per thread segment to `work_buf`; the last block of each",
  "// grid segment folds the partials and writes `out`.",
  "template <GRID_TEMPLATE, typename T, typename Func>",
  "__device__ void gridReduce(",
  "    T& out,",
  "    const T inp_val,",
  "    Func reduction_op,",
  "    T* work_buf,",
  "    int64_t* sync_flags,",
  "    T* shared_mem,",
  "    bool read_pred,",
  "    bool write_pred,",
  "    T init_val) \x7b",
  "  T block_result = init_val;",
  "  blockReduce<XT, YT, ZT>(block_result, inp_val, reduction_op, threadIdx, blockDim, shared_mem, read_pred, true, init_val);",
  "",
  "  const unsigned block_lane = selectedIndex<XB, YB, ZB>(blockIdx, gridDim);",
  "  const unsigned blocks = selectedSize<XB, YB, ZB>(gridDim);",
  "  const unsigned grid_segment = segmentIndex<XB, YB, ZB>(blockIdx, gridDim);",
  "  const unsigned thread_segment = segmentIndex<XT, YT, ZT>(threadIdx, blockDim);",
  "  const unsigned thread_segments = threadsPerBlock() / selectedSize<XT, YT, ZT>(blockDim);",
  "  T* segment_buf = work_buf + (grid_segment * thread_segments + thread_segment) * blocks;",
  "  if (isFirstSelected<XT, YT, ZT>(threadIdx)) \x7b",
  "    segment_buf[block_lane] = block_result;",
  "  \x7d",
  "",
  "  if (arriveAndCheckLast<XB, YB, ZB>(sync_flags)) \x7b",
  "    if (write_pred && isFirstSelected<XT, YT, ZT>(threadIdx)) \x7b",
  "      T result = init_val;",
  "      for (unsigned b = 0; b < blocks; ++b) \x7b",
  "        reduction_op(result, segment_buf[b]);",
  "      \x7d",
  "      reduction_op(out, result);",
  "    \x7d",
  "  \x7d",
  "\x7d",
  "",
  "// Work buffer layout: averages, then variance sums, then counts stored as T.",
  "template <GRID_TEMPLATE, typename T, typename TN>",
  "__device__ void gridWelford(",
  "    T& out_avg,",
  "    T& out_var,",
  "    TN& out_n,",
  "    const T in_avg,",
  "    const T in_var,",
  "    const TN in_n,",
  "    T* work_buf,",
  "    int64_t* sync_flags,",
  "    char* shared_mem,",
  "    bool read_pred,",
  "    bool write_pred) \x7b",
  "  T block_avg = T(0);",
  "  T block_var = T(0);",
  "  TN block_n = TN(0);",
  "  blockWelford<XT, YT, ZT>(block_avg, block_var, block_n, in_avg, in_var, in_n, threadIdx, blockDim, shared_mem,",
  "                           read_pred, true);",
  "",
  "  const unsigned block_lane = selectedIndex<XB, YB, ZB>(blockIdx, gridDim);",
  "  const unsigned blocks = selectedSize<XB, YB, ZB>(gridDim);",
  "  const unsigned grid_segment = segmentIndex<XB, YB, ZB>(blockIdx, gridDim);",
  "  const unsigned thread_segment = segmentIndex<XT, YT, ZT>(threadIdx, blockDim);",
  "  const unsigned thread_segments = threadsPerBlock() / selectedSize<XT, YT, ZT>(blockDim);",
  "  const unsigned section = gridDim.x * gridDim.y * gridDim.z * threadsPerBlock();",
  "  const unsigned slot = (grid_segment * thread_segments + thread_segment) * blocks;",
  "  if (isFirstSelected<XT, YT, ZT>(threadIdx)) \x7b",
  "    work_buf[slot + block_lane] = block_avg;",
  "    work_buf[section + slot + block_lane] = block_var;",
  "    work_buf[2 * section + slot + block_lane] = T(block_n);",
  "  \x7d",
  "",
  "  if (arriveAndCheckLast<XB, YB, ZB>(sync_flags)) \x7b",
  "    if (write_pred && isFirstSelected<XT, YT, ZT>(threadIdx)) \x7b",
  "      for (unsigned b = 0; b < blocks; ++b) \x7b",
  "        welfordCombine(out_avg, out_var, out_n, work_buf[slot + b], work_buf[section + slot + b],",
  "                       TN(work_buf[2 * section + slot + b]));",
  "      \x7d",
  "    \x7d",
  "  \x7d",
  "\x7d",
  "",
  "// The first block and thread of each broadcast segment publishes `inp_val`;",
  "// every block waits for it.",
  "template <GRID_TEMPLATE, typename T>",
  "__device__ void gridBroadcast(",
  "    T& out,",
  "    const T& inp_val,",
  "    T* work_buf,",
  "    int64_t* sync_flags,",
  "    bool read_pred,",
  "    bool write_pred) \x7b",
  "  const unsigned grid_segment = segmentIndex<XB, YB, ZB>(blockIdx, gridDim);",
  "  const unsigned thread_segment = segmentIndex<XT, YT, ZT>(threadIdx, blockDim);",
  "  const unsigned thread_segments = threadsPerBlock() / selectedSize<XT, YT, ZT>(blockDim);",
  "  T* slot = work_buf + grid_segment * thread_segments + thread_segment;",
  "  if (read_pred && isFirstSelected<XB, YB, ZB>(blockIdx) && isFirstSelected<XT, YT, ZT>(threadIdx)) \x7b",
  "    *slot = inp_val;",
  "  \x7d",
  "  gridSync<XB, YB, ZB>(sync_flags);",
  "  if (write_pred) \x7b",
  "    out = *reinterpret_cast<volatile T*>(slot);",
  "  \x7d",
  "\x7d"]

/-- The lines of the prelude. -/
def lines : List String :=
  types ++ halves ++ tensors ++ arithmetic ++ selection ++ blockCollectives ++ gridSynchronization
    ++ gridCollectives

/-- The text of the prelude. -/
def text : String :=
  "\n".intercalate lines ++ "\n"

end Prelude
end Device
end FusionCompiler
